import ShieldLoader.Fb.Packets
import ShieldLoader.Fb.Runs
import Mathlib.Data.Nat.Log

/-!
# The answer of `oem smccc`

The four results of `smc_call` are printed into the space that `INFO` leaves in the small buffer.
Only the last one can be cut off: the other three have at most 16 digits each.
-/

namespace ShieldLoader

open EStateM

/-! ### Numbers that are cut off -/

/-- How many hexadecimal digits a number has. -/
def hexLength (n : UInt64) : Nat := Nat.log 16 n.toNat + 1

theorem length_fmtHex (n : UInt64) : (fmtHex n).length = hexLength n := by
  rw [fmtHex, List.length_map, hexLength]
  refine le_antisymm ?_ ?_
  · rw [Nat.length_toDigits_le_iff (by decide) (Nat.succ_pos _)]
    exact Nat.lt_pow_succ_log_self (by decide) _
  · by_cases h0 : n.toNat = 0
    · rw [h0, Nat.log_zero_right]
      exact Nat.length_toDigits_pos
    · refine (Nat.log_lt_iff_lt_pow (by decide) h0).2 ?_
      exact (Nat.length_toDigits_le_iff (by decide) Nat.length_toDigits_pos).1 le_rfl

theorem hexLength_le (n : UInt64) : hexLength n ≤ 16 := length_fmtHex n ▸ length_fmtHex_le n

/-- The first digits of a number are those of a quotient. -/
theorem take_toDigits {n k : Nat} (h0 : 0 < k) (h : k ≤ (Nat.toDigits 16 n).length) :
    (Nat.toDigits 16 n).take k =
      Nat.toDigits 16 (n / 16 ^ ((Nat.toDigits 16 n).length - k)) := by
  induction n using Nat.base_induction 16 (by decide) with
  | single d hd =>
    rw [Nat.toDigits_of_lt_base hd, List.length_singleton] at h ⊢
    obtain rfl : k = 1 := by omega
    rw [Nat.sub_self, Nat.pow_zero, Nat.div_one, Nat.toDigits_of_lt_base hd]
    rfl
  | digit m d hd hm ih =>
    have hsplit := Nat.toDigits_append_toDigits (b := 16) (by decide) hm hd
    have hlen := congrArg List.length hsplit
    rw [Nat.toDigits_of_lt_base hd, List.length_append, List.length_singleton] at hlen
    rcases Nat.lt_or_eq_of_le h with hlt | rfl
    · have hk : k ≤ (Nat.toDigits 16 m).length := by omega
      have hsub : (Nat.toDigits 16 (16 * m + d)).length - k =
          (Nat.toDigits 16 m).length - k + 1 := by omega
      have hdiv : (16 * m + d) / 16 = m := by omega
      rw [hsub, Nat.pow_succ', ← Nat.div_div_eq_div_mul, hdiv, ← ih hk, ← hsplit,
        List.take_append_of_le_length hk]
    · rw [List.take_length, Nat.sub_self, Nat.pow_zero, Nat.div_one]

/-- A number that is cut off is read back as another one, except for the `0`. -/
theorem simpleStrtoull_take_fmtHex (n : UInt64) (k : Nat) :
    (simpleStrtoull (bytes "0x" ++ (fmtHex n).take k) 0).1 = n ↔ hexLength n ≤ k ∨ n = 0 := by
  have hend : isxdigit (deref []) = false := by decide
  rcases Nat.lt_or_ge k (hexLength n) with hlt | hle
  · rw [or_iff_right hlt.not_ge]
    rcases Nat.eq_zero_or_pos k with rfl | hpos
    · have hzero : (simpleStrtoull (bytes "0x" ++ []) 0).1 = 0 := by decide
      rw [List.take_zero, hzero]
      exact eq_comm
    · -- the digits that are left are those of a smaller number
      set j := hexLength n - k with hj
      have hlen : (Nat.toDigits 16 n.toNat).length = hexLength n := by
        rw [← length_fmtHex, fmtHex, List.length_map]
      have hlog : k ≤ Nat.log 16 n.toNat := Nat.le_of_lt_succ hlt
      have hne : n.toNat ≠ 0 := fun h => by
        rw [h, Nat.log_zero_right] at hlog
        omega
      have hdiv : n.toNat / 16 ^ j < n.toNat :=
        Nat.div_lt_self (Nat.pos_of_ne_zero hne) (Nat.one_lt_pow (by omega) (by decide))
      have hof : (UInt64.ofNat (n.toNat / 16 ^ j)).toNat = n.toNat / 16 ^ j :=
        UInt64.toNat_ofNat_of_lt' (hdiv.trans n.toNat_lt)
      have htake : (fmtHex n).take k = fmtHex (UInt64.ofNat (n.toNat / 16 ^ j)) := by
        rw [fmtHex, fmtHex, ← List.map_take, take_toDigits hpos (hlen ▸ hlt.le), hlen, hof]
      have hread := simpleStrtoull_fmtHex (n := UInt64.ofNat (n.toNat / 16 ^ j)) hend
      rw [List.append_nil] at hread
      rw [htake, hread]
      refine iff_of_false (fun h => ?_) fun h => hne (by rw [h]; rfl)
      have hn := congrArg UInt64.toNat h
      exact absurd (hof.symm.trans hn) hdiv.ne
  · have hread := simpleStrtoull_fmtHex (n := n) hend
    rw [List.append_nil] at hread
    rw [List.take_of_length_le (length_fmtHex n ▸ hle), hread]
    exact iff_of_true rfl (.inl hle)

/-! ### The packet -/

/-- The numbers in a text, one in each piece between blanks. -/
def numbers (text : List UInt8) : List UInt64 :=
  (text.splitOn ' '.toNat.toUInt8).map fun piece => (simpleStrtoull piece 0).1

/-- The packet fits the small buffer and its text is read back as these numbers. -/
def Faithful (packet : List UInt8) (results : List UInt64) : Prop :=
  packet.length ≤ 64 ∧ packet.take 4 = bytes "INFO" ∧ numbers (packet.drop 4) = results

instance (packet : List UInt8) (results : List UInt64) : Decidable (Faithful packet results) :=
  inferInstanceAs (Decidable (_ ∧ _))

theorem faithful_iff {text : List UInt8} (h : text.length ≤ 60) (results : List UInt64) :
    Faithful (bytes "INFO" ++ text) results ↔ numbers text = results := by
  have hlen : (bytes "INFO").length = 4 := rfl
  rw [Faithful, List.take_left' hlen, List.drop_left' hlen, List.length_append, hlen]
  exact ⟨fun h => h.2.2, fun hnum => ⟨by omega, rfl, hnum⟩⟩

section
variable (r0 r1 r2 r3 : UInt64)

/-- What is left of the text in the buffer. -/
theorem scnprintf_results :
    scnprintf 60 (bytes "0x" ++ fmtHex r0 ++ bytes " 0x" ++ fmtHex r1 ++ bytes " 0x" ++ fmtHex r2 ++
      bytes " 0x" ++ fmtHex r3) =
    [' '.toNat.toUInt8].intercalate [bytes "0x" ++ fmtHex r0, bytes "0x" ++ fmtHex r1,
      bytes "0x" ++ fmtHex r2,
      bytes "0x" ++ (fmtHex r3).take (48 - (hexLength r0 + hexLength r1 + hexLength r2))] := by
  have h0 := hexLength_le r0
  have h1 := hexLength_le r1
  have h2 := hexLength_le r2
  have hblank : bytes " 0x" = ' '.toNat.toUInt8 :: bytes "0x" := rfl
  have hx : (bytes "0x").length = 2 := rfl
  have hx' : (bytes " 0x").length = 3 := rfl
  rw [scnprintf, List.take_append, List.take_of_length_le]
  · simp only [List.length_append, length_fmtHex, hx, hx']
    rw [show 60 - 1 - (2 + hexLength r0 + 3 + hexLength r1 + 3 + hexLength r2 + 3) =
      48 - (hexLength r0 + hexLength r1 + hexLength r2) by omega]
    simp [List.intercalate, hblank]
  · simp only [List.length_append, length_fmtHex, hx, hx']
    omega

theorem blank_notMem_number {n : UInt64} {k : Nat} :
    ' '.toNat.toUInt8 ∉ bytes "0x" ++ (fmtHex n).take k := by
  intro h
  rcases List.mem_append.1 h with h | h
  · exact absurd h (by decide)
  · exact absurd (isHexDigit_of_mem_fmtHex (List.mem_of_mem_take h)).xdigit (by decide)

/-- The numbers that the text has. -/
theorem numbers_results :
    numbers (scnprintf 60 (bytes "0x" ++ fmtHex r0 ++ bytes " 0x" ++ fmtHex r1 ++ bytes " 0x" ++
      fmtHex r2 ++ bytes " 0x" ++ fmtHex r3)) = [r0, r1, r2, r3] ↔
    hexLength r0 + hexLength r1 + hexLength r2 + hexLength r3 ≤ 48 ∨ r3 = 0 := by
  have hfull : ∀ n, (simpleStrtoull (bytes "0x" ++ fmtHex n) 0).1 = n := fun n => by
    have hread := (simpleStrtoull_take_fmtHex n (fmtHex n).length).2 (.inl (length_fmtHex n).ge)
    rwa [List.take_length] at hread
  have hno : ∀ n, ' '.toNat.toUInt8 ∉ bytes "0x" ++ fmtHex n := fun n => by
    have := @blank_notMem_number n (fmtHex n).length
    rwa [List.take_length] at this
  rw [numbers, scnprintf_results, List.splitOn_intercalate _ ?_ (by simp)]
  · simp only [List.map_cons, List.map_nil, hfull, List.cons.injEq, true_and, and_true]
    rw [simpleStrtoull_take_fmtHex]
    have := hexLength_le r0
    have := hexLength_le r1
    have := hexLength_le r2
    have h3 : 1 ≤ hexLength r3 := Nat.succ_pos _
    refine or_congr_left ?_
    omega
  · simp only [List.forall_mem_cons, List.not_mem_nil, false_implies, implies_true, and_true]
    exact ⟨hno r0, hno r1, hno r2, blank_notMem_number⟩

end

/-- **`oem smccc` returns the four results** exactly when they have at most 48 digits, or the last
one is `0`. -/
theorem fbOemCmdSmccc_faithful_iff {cmd : List UInt8} {args : List UInt64}
    (hargs : fbOemCmdSmccc.args 8 cmd = some args) (s : Fb) {r0 r1 r2 r3 : UInt64}
    (hsmc : s.ctx.smc ((args ++ List.replicate (8 - args.length) 0) :: s.ctx.smcCalls) =
      (r0, r1, r2, r3)) :
    Post (fbOemCmdSmccc cmd)
      (fun status s' => status = fbOk ∧ (Faithful s'.inPacket [r0, r1, r2, r3] ↔
        hexLength r0 + hexLength r1 + hexLength r2 + hexLength r3 ≤ 48 ∨ r3 = 0))
      (fun e _ => Blocked s e) s := by
  rw [fbOemCmdSmccc, hargs]
  simp only [post_bind, post_modify, post_get]
  set s₁ := s.setCtx fun fb =>
    { fb with smcCalls := (args ++ List.replicate (8 - args.length) 0) :: fb.smcCalls } with hs₁
  have hres : s₁.ctx.smc s₁.ctx.smcCalls = (r0, r1, r2, r3) := hsmc
  simp only [hres, post_pure]
  refine (fbEndCommandWithInfo_sends s₁ _).imp fun _ s' h => ⟨trivial, ?_⟩
  rw [← numbers_results, h.1.packet, faithful_iff]
  rw [scnprintf, List.length_take]
  omega

/-- A machine whose firmware answers every call with these results. -/
def smcMachine (r0 r1 r2 r3 : UInt64) : Fb :=
  { machine with ctx := { machine.ctx with smc := fun _ => (r0, r1, r2, r3) } }

theorem fbOemCmdSmccc_faithful_version :
    Post (fbOemCmdSmccc (bytes "0x84000000"))
      (fun status s' => status = fbOk ∧ Faithful s'.inPacket [0xdeadbeef, 0, 0, 0])
      (fun e _ => Blocked (smcMachine 0xdeadbeef 0 0 0) e) (smcMachine 0xdeadbeef 0 0 0) :=
  (@fbOemCmdSmccc_faithful_iff (bytes "0x84000000") [0x84000000] (by decide) _ _ _ _ _ rfl).imp
    fun _ _ h => ⟨h.1, h.2.2 (.inr rfl)⟩

/-- Four results of 16 digits are cut off behind the third one. -/
theorem fbOemCmdSmccc_truncated :
    Post (fbOemCmdSmccc (bytes "0x84000000"))
      (fun status s' => status = fbOk ∧ ¬Faithful s'.inPacket (List.replicate 4 0xffffffffffffffff))
      (fun _ _ => False) (smcMachine 0xffffffffffffffff 0xffffffffffffffff 0xffffffffffffffff
        0xffffffffffffffff) := by
  decide +kernel

end ShieldLoader
