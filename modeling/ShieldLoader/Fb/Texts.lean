import ShieldLoader.Fb.Defs
import Mathlib.Data.List.Find

/-!
# What commands read

A handler reads its argument up to the first NUL.
-/

namespace ShieldLoader

/-- Only the text of the argument is read. -/
def Textual {α : Type} (f : List UInt8 → α) : Prop :=
  ∀ p t t', 0 ∉ p → f (p ++ 0 :: t) = f (p ++ 0 :: t')

theorem zero_notMem_drop {p : List UInt8} (hp : 0 ∉ p) (n : Nat) : 0 ∉ p.drop n :=
  fun h => hp (List.mem_of_mem_drop h)

/-- The string behind a character that is not its end. -/
theorem string_behind {p : List UInt8} {c : UInt8} (hp : 0 ∉ p) (h : deref p = c) (hc : c ≠ 0) :
    0 ∉ p.drop 1 ∧ ∀ t, (p ++ 0 :: t).drop 1 = p.drop 1 ++ 0 :: t := by
  have hne : deref p ≠ 0 := by rwa [h]
  exact ⟨zero_notMem_drop hp 1, fun t => drop_one_append_zero t hne⟩

/-- The string behind a number and a blank. -/
theorem string_behind_number {p : List UInt8} (hp : 0 ∉ p)
    (h : deref (simpleStrtoull p 0).2 = ' '.toNat.toUInt8) :
    0 ∉ (simpleStrtoull p 0).2.drop 1 ∧
      ∀ t, ((simpleStrtoull p 0).2 ++ 0 :: t).drop 1 = (simpleStrtoull p 0).2.drop 1 ++ 0 :: t :=
  string_behind (zero_notMem_simpleStrtoull hp 0) h blank_ne_zero

theorem fbOemCmdFree_textual : Textual fbOemCmdFree := by
  intro p t t' hp
  simp only [fbOemCmdFree, simpleStrtoull_append_zero _ hp, deref_append_zero]
  refine ite_congr rfl (fun _ => rfl) fun hsize => ?_
  obtain ⟨hp, hdrop⟩ := string_behind_number hp (not_not.1 hsize)
  simp only [hdrop, simpleStrtoull_append_zero _ hp, deref_append_zero]
  refine ite_congr rfl (fun _ => rfl) fun halign => ?_
  obtain ⟨hp, hdrop⟩ := string_behind_number hp (not_not.1 halign)
  simp only [hdrop, simpleStrtoull_append_zero _ hp, deref_append_zero]

section
variable {p : List UInt8} (hp : 0 ∉ p)
include hp

theorem fbOemCmdPeek.access_append_zero : 0 ∉ (fbOemCmdPeek.access p).2.2 ∧ ∀ t,
    fbOemCmdPeek.access (p ++ 0 :: t) = ((fbOemCmdPeek.access p).1, (fbOemCmdPeek.access p).2.1,
      (fbOemCmdPeek.access p).2.2 ++ 0 :: t) := by
  simp only [fbOemCmdPeek.access, simpleStrtoull_append_zero _ hp, deref_append_zero]
  split
  · next hc => exact ⟨zero_notMem_drop hp 1, fun t => by rw [(string_behind hp hc (by decide)).2 t]⟩
  · exact ⟨zero_notMem_simpleStrtoull hp 0, fun t => rfl⟩

theorem fbOemCmdPeek.items_append_zero : 0 ∉ (fbOemCmdPeek.items p).2 ∧ ∀ t,
    fbOemCmdPeek.items (p ++ 0 :: t) =
      ((fbOemCmdPeek.items p).1, (fbOemCmdPeek.items p).2 ++ 0 :: t) := by
  simp only [fbOemCmdPeek.items, deref_append_zero]
  split
  · next hc =>
    obtain ⟨hp, hdrop⟩ := string_behind hp hc blank_ne_zero
    refine ⟨zero_notMem_simpleStrtoull hp 0, fun t => ?_⟩
    rw [hdrop, simpleStrtoull_append_zero _ hp]
  · exact ⟨hp, fun t => rfl⟩

theorem fbOemCmdAllocEx.type_append_zero (t : List UInt8) :
    fbOemCmdAllocEx.type (p ++ 0 :: t) = fbOemCmdAllocEx.type (p ++ [0]) := by
  simp only [fbOemCmdAllocEx.type, deref_append_zero]
  split
  · next hc =>
    obtain ⟨hp, hdrop⟩ := string_behind hp hc blank_ne_zero
    simp only [hdrop, memcmp_end _ hp (show 0 ∉ bytes "boot" by decide),
      memcmp_end _ hp (show 0 ∉ bytes "runtime" by decide)]
  · rfl

theorem fbOemCmdSmccc.args_append_zero (n : Nat) (t : List UInt8) :
    fbOemCmdSmccc.args n (p ++ 0 :: t) = fbOemCmdSmccc.args n p := by
  induction n generalizing p with
  | zero => simp only [args, deref_append_zero]
  | succ n ih =>
    simp only [args, simpleStrtoull_append_zero _ hp, deref_append_zero]
    refine ite_congr rfl (fun _ => rfl) fun _ => ite_congr rfl (fun _ => rfl) fun hc => ?_
    obtain ⟨hp, hdrop⟩ := string_behind_number hp (not_not.1 hc)
    rw [hdrop, ih hp]

end

theorem fbOemCmdPeek_textual : Textual fbOemCmdPeek := by
  intro p t t' hp
  simp only [fbOemCmdPeek, simpleStrtoull_append_zero _ hp, deref_append_zero]
  refine congrArg (modify _ >>= ·) (funext fun _ => ite_congr rfl (fun _ => rfl) fun hc => ?_)
  obtain ⟨hp, hdrop⟩ := string_behind_number hp (not_not.1 hc)
  obtain ⟨hp, haccess⟩ := fbOemCmdPeek.access_append_zero hp
  obtain ⟨hp, hitems⟩ := fbOemCmdPeek.items_append_zero hp
  simp only [hdrop, haccess, hitems, deref_append_zero]

theorem fbOemCmdPoke.loop_textual (access : UInt64) (ascii : Bool) (addr : UInt64) :
    Textual (fbOemCmdPoke.loop access ascii addr) := by
  intro p t t' hp
  induction hlen : p.length using Nat.strong_induction_on generalizing p addr with
  | _ n ih =>
    conv_lhs => rw [loop]
    conv_rhs => rw [loop]
    simp only [simpleStrtoull_append_zero _ hp, deref_append_zero]
    have hnum := zero_notMem_simpleStrtoull hp 0
    have hle := (simpleStrtoull_suffix p 0).length_le
    refine dite_congr rfl (fun _ => rfl) fun hne => ite_congr rfl (fun _ => ?_) fun _ =>
      dite_congr rfl (fun hc => ?_) fun _ => dite_congr rfl (fun hend => ?_) fun _ => rfl
    · rw [drop_one_append_zero t hne, drop_one_append_zero t' hne,
        ih _ (hlen ▸ length_drop_one_lt hne) _ _ (zero_notMem_drop hp 1) rfl]
    · obtain ⟨hrest, hdrop⟩ := string_behind hnum hc blank_ne_zero
      have hlt : ((simpleStrtoull p 0).2.drop 1).length < n :=
        hlen ▸ (length_drop_one_lt (by rw [hc]; exact blank_ne_zero)).trans_le hle
      rw [hdrop, hdrop, ih _ hlt _ _ hrest rfl]
    · rw [ih _ (hlen ▸ simpleStrtoull_length_lt hne hend) _ _ hnum rfl]

theorem fbOemCmdPoke_textual : Textual fbOemCmdPoke := by
  intro p t t' hp
  simp only [fbOemCmdPoke, simpleStrtoull_append_zero _ hp, deref_append_zero]
  refine ite_congr rfl (fun _ => rfl) fun hc => ?_
  obtain ⟨hp, hdrop⟩ := string_behind_number hp (not_not.1 hc)
  obtain ⟨hp, haccess⟩ := fbOemCmdPeek.access_append_zero hp
  simp only [hdrop, haccess, deref_append_zero]
  refine ite_congr rfl (fun _ => rfl) fun _ => ite_congr rfl (fun _ => rfl) fun hc => ?_
  obtain ⟨hp, hdrop⟩ := string_behind hp (not_not.1 hc) blank_ne_zero
  rw [hdrop, hdrop]
  exact fbOemCmdPoke.loop_textual _ _ _ _ t t' hp

theorem fbOemCmdEcho_textual : Textual fbOemCmdEcho := by
  intro p t t' hp
  simp only [fbOemCmdEcho, text_append_zero hp]

theorem fbOemCmdAllocEx_textual (maxAddr : UInt64) : Textual (fbOemCmdAllocEx · maxAddr) := by
  intro p t t' hp
  simp only [fbOemCmdAllocEx, simpleStrtoull_append_zero _ hp, deref_append_zero]
  refine ite_congr rfl (fun _ => rfl) fun hc => ?_
  obtain ⟨hp, hdrop⟩ := string_behind_number hp (not_not.1 hc)
  simp only [hdrop, simpleStrtoull_append_zero _ hp]
  rw [fbOemCmdAllocEx.type_append_zero (zero_notMem_simpleStrtoull hp 0) t,
    fbOemCmdAllocEx.type_append_zero (zero_notMem_simpleStrtoull hp 0) t']

theorem fbOemCmdSmccc_textual : Textual fbOemCmdSmccc := by
  intro p t t' hp
  simp only [fbOemCmdSmccc, fbOemCmdSmccc.args_append_zero hp]

theorem fbOemCmdReboot_textual : Textual fbOemCmdReboot := by
  intro p t t' hp
  simp only [fbOemCmdReboot, strcmp_append_zero _ hp, simpleStrtoull_append_zero _ hp,
    deref_append_zero]

theorem fbCmdFlash_textual : Textual fbCmdFlash := by
  intro p t t' hp
  simp only [fbCmdFlash, strcmp_append_zero _ hp]

theorem fbCmdDownload_textual (call : Complete FbComplete → Req → FbM Unit) :
    Textual (fbCmdDownload call) := by
  intro p t t' hp
  simp only [fbCmdDownload, simpleStrtoull_append_zero _ hp, deref_append_zero]

/-! ### Selection -/

/-- The command with the text of its argument. -/
def FbSelected.text : FbSelected → FbSelected
  | .oem cmd => .oem (ShieldLoader.text cmd)
  | .reboot type => .reboot type
  | .download cmd => .download (ShieldLoader.text cmd)
  | .flash cmd => .flash (ShieldLoader.text cmd)
  | .unknown => .unknown

/-- The command with `t` behind its argument. -/
def FbSelected.append (t : List UInt8) : FbSelected → FbSelected
  | .oem cmd => .oem (cmd ++ t)
  | .reboot type => .reboot type
  | .download cmd => .download (cmd ++ t)
  | .flash cmd => .flash (cmd ++ t)
  | .unknown => .unknown

/-- The argument of a command has no NUL. -/
def FbSelected.NoNul : FbSelected → Prop
  | .oem cmd | .download cmd | .flash cmd => 0 ∉ cmd
  | .reboot _ | .unknown => True

/-- What a command is spelled. -/
def FbSelected.spelling : FbSelected → List UInt8
  | .oem cmd => bytes "oem " ++ cmd
  | .reboot type => if type = rebootNormal then bytes "reboot" else bytes "reboot-bootloader"
  | .download cmd => bytes "download:" ++ cmd
  | .flash cmd => bytes "flash:" ++ cmd
  | .unknown => []

section
variable {p : List UInt8} (hp : 0 ∉ p)
include hp

/-- A string is the command that its text is. -/
theorem fbSelect_append_zero (t : List UInt8) :
    fbSelect (p ++ 0 :: t) = (fbSelect p).append (0 :: t) := by
  have hdrop : ∀ name, memcmp p name = true →
      (p ++ 0 :: t).drop name.length = p.drop name.length ++ 0 :: t := fun name h =>
    List.drop_append_of_le_length (memcmp_iff.1 h).length_le
  have hstrcmp : ∀ name, strcmp (p ++ 0 :: t) name = strcmp p name := fun name => by
    rw [strcmp, strcmp, text_append_zero hp, text_of_notMem hp]
  simp only [fbSelect, hstrcmp, memcmp_append_zero t (show 0 ∉ bytes "oem " by decide),
    memcmp_append_zero t (show 0 ∉ bytes "download:" by decide),
    memcmp_append_zero t (show 0 ∉ bytes "flash:" by decide)]
  split_ifs with h1 h2 h3 h4 h5
  · exact congrArg FbSelected.oem (hdrop _ h1)
  · rfl
  · rfl
  · exact congrArg FbSelected.download (hdrop _ h4)
  · exact congrArg FbSelected.flash (hdrop _ h5)
  · rfl

theorem fbSelect_noNul : (fbSelect p).NoNul := by
  rw [fbSelect]
  split_ifs with h1 h2 h3 h4 h5
  · exact zero_notMem_drop hp 4
  · trivial
  · trivial
  · exact zero_notMem_drop hp 9
  · exact zero_notMem_drop hp 6
  · trivial

/-- A text that is a command is spelled as that command. -/
theorem fbSelect_spelling (h : fbSelect p ≠ .unknown) : (fbSelect p).spelling = p := by
  have happend : ∀ name, memcmp p name = true → name ++ p.drop name.length = p := by
    intro name h
    obtain ⟨r, rfl⟩ := memcmp_iff.1 h
    rw [List.drop_left]
  rw [fbSelect] at h ⊢
  split_ifs at h ⊢ with h1 h2 h3 h4 h5
  · exact happend _ h1
  · rw [strcmp, text_of_notMem hp, beq_iff_eq] at h2
    exact h2.symm
  · rw [strcmp, text_of_notMem hp, beq_iff_eq] at h3
    exact h3.symm
  · exact happend _ h4
  · exact happend _ h5
  · exact absurd rfl h

end

theorem FbSelected.append_text {sel : FbSelected} (h : sel.NoNul) (t : List UInt8) :
    (sel.append (0 :: t)).text = sel := by
  cases sel with
  | oem cmd => exact congrArg FbSelected.oem (text_append_zero h t)
  | reboot type => rfl
  | download cmd => exact congrArg FbSelected.download (text_append_zero h t)
  | flash cmd => exact congrArg FbSelected.flash (text_append_zero h t)
  | unknown => rfl

theorem fbCmdOem_textual : Textual fbCmdOem := by
  intro p t t' hp
  have hname : ∀ c ∈ fbOemCmds, 0 ∉ c.1 := by
    simp only [fbOemCmds, List.forall_mem_cons]
    decide
  have htextual : ∀ c ∈ fbOemCmds, Textual c.2 := by
    simp only [fbOemCmds, List.forall_mem_cons, List.not_mem_nil, false_imp_iff, implies_true, and_true]
    exact ⟨fbOemCmdPeek_textual, fbOemCmdPoke_textual, fbOemCmdEcho_textual,
      fbOemCmdAllocEx_textual _, fbOemCmdAllocEx_textual _, fbOemCmdFree_textual,
      fbOemCmdSmccc_textual, fbOemCmdReboot_textual⟩
  have hfind : ∀ t, (fbOemCmds.find? fun c => memcmp (p ++ 0 :: t) c.1) =
      fbOemCmds.find? fun c => memcmp p c.1 := fun t =>
    List.find?_congr fun c hc => memcmp_append_zero t (hname c hc)
  rw [fbCmdOem, fbCmdOem, hfind, hfind]
  split
  · rfl
  · next c hc =>
    have hmem := List.mem_of_find?_eq_some hc
    have hmatch : memcmp p c.1 = true := by simpa using List.find?_some hc
    have hle := (memcmp_iff.1 hmatch).length_le
    rw [List.drop_append_of_le_length hle, List.drop_append_of_le_length hle]
    exact htextual c hmem _ t t' (zero_notMem_drop hp _)

/-- A command is carried out according to its text. -/
theorem fbDispatch_append (call : Complete FbComplete → Req → FbM Unit) {sel : FbSelected}
    (h : sel.NoNul) (t t' : List UInt8) :
    fbDispatch call (sel.append (0 :: t)) = fbDispatch call (sel.append (0 :: t')) := by
  cases sel with
  | oem cmd => exact fbCmdOem_textual cmd t t' h
  | reboot type => rfl
  | download cmd => exact fbCmdDownload_textual call cmd t t' h
  | flash cmd => exact fbCmdFlash_textual cmd t t' h
  | unknown => rfl

end ShieldLoader
