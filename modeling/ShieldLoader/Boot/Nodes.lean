import ShieldLoader.Boot.Main
import ShieldLoader.Data.Machine
import ShieldLoader.Lmb.Request

/-!
# The memory nodes of the device tree

`main` takes the `reg` property of each memory node apart. Its loop counts the length down by the
16 bytes of a range and ends when nothing is left, so that a length which is no multiple of 16 is
never used up: the loop reads what is behind the property, and does not end.
-/

namespace ShieldLoader

/-! ### Cells -/

/-- `swab32`. -/
def swab32 (x : UInt32) : UInt32 :=
  (x &&& 0x000000ff) <<< 24 ||| (x &&& 0x0000ff00) <<< 8 ||| (x &&& 0x00ff0000) >>> 8 |||
    (x &&& 0xff000000) >>> 24

/-- What `fdt_getprop` finds for `reg`: the bytes from the first one of the property on, with
whatever is behind it, and the length. -/
structure RegProp where
  data : Nat → UInt8
  len : Nat
  len_lt : len < 2 ^ 31

namespace RegProp

variable (reg : RegProp)

/-- `*prop`, for the pointer at offset `i`. The processor is little-endian. -/
def load (i : Nat) : UInt32 :=
  UInt32.ofNat ((List.range 4).foldr (fun k n => (reg.data (i + k)).toNat + 256 * n) 0)

/-- `base` or `size`, when `prop` is at offset `i`. -/
def cells (i : Nat) : UInt64 :=
  (swab32 (reg.load (i + 4))).toUInt64 ||| (swab32 (reg.load i)).toUInt64 <<< 32

/-- The big-endian number of 64 bits at offset `i`. -/
def number (i : Nat) : UInt64 :=
  UInt64.ofNat ((List.range 8).foldl (fun n k => 256 * n + (reg.data (i + k)).toNat) 0)

/-- The ranges that the property has room for: base and size. -/
def ranges : List (UInt64 × UInt64) :=
  (List.range (reg.len / 16)).map fun j => (reg.number (16 * j), reg.number (16 * j + 8))

end RegProp

theorem and_byte (x k : Nat) : x &&& 255 * 2 ^ k = x / 2 ^ k % 256 * 2 ^ k := by
  have h := Nat.and_two_pow_sub_one_eq_mod (x / 2 ^ k) 8
  rw [← Nat.shiftLeft_eq, ← Nat.shiftLeft_eq, ← h, Nat.shiftLeft_and_distrib]
  apply Nat.eq_of_testBit_eq
  intro i
  simp only [Nat.testBit_and, Nat.testBit_shiftLeft, Nat.testBit_div_two_pow]
  by_cases hi : k ≤ i
  · simp [hi]
  · simp [hi]

theorem mul_two_pow_or {a b k : Nat} (h : b < 2 ^ k) : a * 2 ^ k ||| b = a * 2 ^ k + b := by
  rw [← Nat.shiftLeft_eq, Nat.shiftLeft_add_eq_or_of_lt h]

/-- `swab32` reverses the bytes. -/
theorem toNat_swab32 (x : UInt32) : (swab32 x).toNat =
    ((x.toNat % 256 * 256 + x.toNat / 2 ^ 8 % 256) * 256 + x.toNat / 2 ^ 16 % 256) * 256 +
      x.toNat / 2 ^ 24 % 256 := by
  have h0 : x.toNat &&& 255 = x.toNat % 256 := Nat.and_two_pow_sub_one_eq_mod _ 8
  have h1 := and_byte x.toNat 8
  have h2 := and_byte x.toNat 16
  have h3 := and_byte x.toNat 24
  rw [swab32]
  set d0 := x.toNat % 256 with hd0
  set d1 := x.toNat / 2 ^ 8 % 256 with hd1
  set d2 := x.toNat / 2 ^ 16 % 256 with hd2
  set d3 := x.toNat / 2 ^ 24 % 256 with hd3
  have e0 : ((x &&& 0x000000ff) <<< 24).toNat = d0 * 2 ^ 24 := by
    show ((x.toNat &&& 255) <<< 24) % 2 ^ 32 = _
    rw [h0, Nat.shiftLeft_eq]
    omega
  have e1 : ((x &&& 0x0000ff00) <<< 8).toNat = d1 * 2 ^ 16 := by
    show ((x.toNat &&& 255 * 2 ^ 8) <<< 8) % 2 ^ 32 = _
    rw [h1, Nat.shiftLeft_eq]
    omega
  have e2 : ((x &&& 0x00ff0000) >>> 8).toNat = d2 * 2 ^ 8 := by
    show (x.toNat &&& 255 * 2 ^ 16) >>> 8 = _
    rw [h2, Nat.shiftRight_eq_div_pow]
    omega
  have e3 : ((x &&& 0xff000000) >>> 24).toNat = d3 := by
    show (x.toNat &&& 255 * 2 ^ 24) >>> 24 = _
    rw [h3, Nat.shiftRight_eq_div_pow]
    omega
  -- the digits do not meet
  have s1 : d0 * 2 ^ 24 ||| d1 * 2 ^ 16 = (d0 * 256 + d1) * 2 ^ 16 := by
    have hlt : d1 * 2 ^ 16 < 2 ^ 24 := by omega
    rw [mul_two_pow_or hlt]
    omega
  have s2 : (d0 * 256 + d1) * 2 ^ 16 ||| d2 * 2 ^ 8 = ((d0 * 256 + d1) * 256 + d2) * 2 ^ 8 := by
    have hlt : d2 * 2 ^ 8 < 2 ^ 16 := by omega
    rw [mul_two_pow_or hlt]
    omega
  have s3 : ((d0 * 256 + d1) * 256 + d2) * 2 ^ 8 ||| d3 = ((d0 * 256 + d1) * 256 + d2) * 256 + d3 :=
    mul_two_pow_or (by omega)
  rw [UInt32.toNat_or, UInt32.toNat_or, UInt32.toNat_or, e0, e1, e2, e3, s1, s2, s3]

section
variable (reg : RegProp)

theorem RegProp.toNat_swab32_load (i : Nat) : (swab32 (reg.load i)).toNat =
    (((reg.data i).toNat * 256 + (reg.data (i + 1)).toNat) * 256 + (reg.data (i + 2)).toNat) * 256 +
      (reg.data (i + 3)).toNat := by
  have hb := fun k => (reg.data (i + k)).toNat_lt
  have h0 : (reg.data i).toNat < 2 ^ 8 := hb 0
  have h1 := hb 1; have h2 := hb 2; have h3 := hb 3
  have hload : (reg.load i).toNat = (reg.data i).toNat + 256 * ((reg.data (i + 1)).toNat +
      256 * ((reg.data (i + 2)).toNat + 256 * (reg.data (i + 3)).toNat)) := by
    rw [load, UInt32.toNat_ofNat']
    simp only [show List.range 4 = [0, 1, 2, 3] from rfl, List.foldr_cons, List.foldr_nil,
      Nat.add_zero, Nat.mul_zero]
    omega
  have d0 : (reg.load i).toNat % 256 = (reg.data i).toNat := by omega
  have d1 : (reg.load i).toNat / 2 ^ 8 % 256 = (reg.data (i + 1)).toNat := by omega
  have d2 : (reg.load i).toNat / 2 ^ 16 % 256 = (reg.data (i + 2)).toNat := by omega
  have d3 : (reg.load i).toNat / 2 ^ 24 % 256 = (reg.data (i + 3)).toNat := by omega
  rw [toNat_swab32, d0, d1, d2, d3]

/-- The two cells are the number that is stored there. -/
theorem RegProp.cells_eq (i : Nat) : reg.cells i = reg.number i := by
  have hhi := reg.toNat_swab32_load i
  have hlo := reg.toNat_swab32_load (i + 4)
  have hlt := (swab32 (reg.load (i + 4))).toNat_lt
  have hlt' := (swab32 (reg.load i)).toNat_lt
  have hor : (reg.cells i).toNat =
      (swab32 (reg.load i)).toNat * 2 ^ 32 + (swab32 (reg.load (i + 4))).toNat := by
    rw [cells, UInt64.toNat_or, Nat.or_comm, UInt64.toNat_shiftLeft, UInt32.toNat_toUInt64,
      UInt32.toNat_toUInt64, show (32 : UInt64).toNat % 64 = 32 from rfl, Nat.shiftLeft_eq,
      Nat.mod_eq_of_lt (by omega), mul_two_pow_or hlt]
  rw [← UInt64.toNat_inj, hor, hhi, hlo, number, UInt64.toNat_ofNat']
  have hb := fun k => (reg.data (i + k)).toNat_lt
  have h0 := hb 0; have h1 := hb 1; have h2 := hb 2; have h3 := hb 3
  have h4 := hb 4; have h5 := hb 5; have h6 := hb 6; have h7 := hb 7
  simp only [show List.range 8 = [0, 1, 2, 3, 4, 5, 6, 7] from rfl, List.foldl_cons, List.foldl_nil,
    Nat.add_assoc, Nat.reduceAdd, Nat.add_zero] at *
  omega

end

/-! ### The loops -/

/-- Where `main` is: at the head of the `for` loop, or at that of the `while` loop, or it was
stopped by `BUG_ON_EX` or in a call that left the array. -/
inductive NodeLoop.Place where
  | node
  | range (reg : RegProp) (prop : Nat) (propLen : Int32)
  | stopped

/-- `main` in its loop over the memory nodes, with the nodes that are left to be found and their
`reg`, if they have one, with the bytes that it has read, and with the ranges that it has called
`lmb_add` for. -/
structure NodeLoop where
  place : NodeLoop.Place
  nodes : List (Option RegProp)
  lmb : Lmb
  reads : List (RegProp × Nat)
  calls : List (UInt64 × UInt64)

namespace NodeLoop

/-- The range of a call. -/
def property (r : UInt64 × UInt64) : LmbProperty := ⟨r.1, r.2, lmbTag 'R' 'A' 'M' 'R', .free⟩

/-- A turn of one of the loops. -/
def step (s : NodeLoop) : NodeLoop :=
  match s.place, s.nodes with
  | .stopped, _ => s
  | .node, [] => s
  | .node, none :: nodes => { s with place := .stopped, nodes }
  | .node, some reg :: nodes => { s with place := .range reg 0 (Int32.ofNat reg.len), nodes }
  | .range reg prop propLen, _ =>
    if propLen = 0 then { s with place := .node }
    else
      let base := reg.cells prop
      let size := reg.cells (prop + 8)
      let reads := s.reads ++ (List.range 16).map fun k => (reg, prop + k)
      let calls := s.calls ++ [(base, size)]
      match lmbAdd s.lmb base size (lmbTag 'R' 'A' 'M' 'R') with
      | none => { s with place := .stopped, reads, calls }
      | some (_, lmb) =>
        { s with place := .range reg (prop + 16) (propLen - 16), lmb, reads, calls }

/-- Before the loop, for nodes that all have a `reg`. -/
def start (lmb : Lmb) (regs : List RegProp) : NodeLoop where
  place := .node
  nodes := regs.map some
  lmb := lmbInit lmb
  reads := []
  calls := []

/-- The loop has come to its end. -/
def Ended (s : NodeLoop) : Prop := s.place = .node ∧ s.nodes = []

/-- Only bytes of the properties were read, and `lmb_add` was called for their ranges. -/
structure Parsed (regs : List RegProp) (s : NodeLoop) : Prop where
  reads : ∀ r ∈ s.reads, r.2 < r.1.len
  calls : s.calls = regs.flatMap RegProp.ranges

variable {s : NodeLoop} {reg : RegProp} {regs : List RegProp}

theorem Ended.step (h : s.Ended) : s.step = s := by
  rw [NodeLoop.step, h.1, h.2]

/-- The memory table has an entry and is within its bound. -/
def Room (s : NodeLoop) : Prop :=
  0 < s.lmb.memory.cnt.toNat ∧ s.lmb.memory.cnt.toNat ≤ maxLmbRegions

theorem start_room (lmb : Lmb) (regs : List RegProp) : (start lmb regs).Room :=
  ⟨Nat.one_pos, show 1 ≤ 32 by decide⟩

theorem lmbAdd_room (h : s.Room) (base size : UInt64) (tag : UInt32) :
    ∃ r lmb, lmbAdd s.lmb base size tag = some (r, lmb) ∧ 0 < lmb.memory.cnt.toNat ∧
      lmb.memory.cnt.toNat ≤ maxLmbRegions := by
  obtain ⟨r, memory, hr, hpos, hle⟩ := @lmbAddRegion_cnt _ ⟨base, size, tag, .free⟩ h.1 h.2
  exact ⟨r, { s.lmb with memory }, by rw [lmbAdd, hr]; rfl, hpos, hle⟩

/-! ### A property -/

/-- A round of the `while` loop. -/
theorem step_range {prop : Nat} {propLen : Int32} (hs : s.place = .range reg prop propLen)
    (hlen : propLen ≠ 0) (hroom : s.Room) :
    s.step.place = .range reg (prop + 16) (propLen - 16) ∧ s.step.nodes = s.nodes ∧
      s.step.Room ∧ s.step.reads = s.reads ++ (List.range 16).map (fun k => (reg, prop + k)) ∧
      s.step.calls = s.calls ++ [(reg.number prop, reg.number (prop + 8))] := by
  obtain ⟨r, lmb, hadd, hpos, hle⟩ :=
    lmbAdd_room hroom (reg.cells prop) (reg.cells (prop + 8)) (lmbTag 'R' 'A' 'M' 'R')
  rw [NodeLoop.step, hs]
  dsimp only
  rw [if_neg hlen, hadd, reg.cells_eq, reg.cells_eq]
  exact ⟨rfl, rfl, ⟨hpos, hle⟩, rfl, rfl⟩

/-- The loop has done `i` ranges of a property, and had read and called before it what `s₀` has. -/
structure InProperty (s₀ : NodeLoop) (reg : RegProp) (i : Nat) (s : NodeLoop) : Prop where
  place : s.place = .range reg (16 * i) (Int32.ofNat (reg.len - 16 * i))
  nodes : s.nodes = s₀.nodes
  room : s.Room
  reads : ∀ r ∈ s.reads, r ∈ s₀.reads ∨ r.2 < r.1.len
  calls : s.calls = s₀.calls ++
    (List.range i).map fun j => (reg.number (16 * j), reg.number (16 * j + 8))

theorem toInt_ofNat_len (reg : RegProp) (n : Nat) :
    (Int32.ofNat (reg.len - n)).toInt = (reg.len - n : Nat) :=
  Int32.toInt_ofNat_of_lt ((Nat.sub_le ..).trans_lt reg.len_lt)

theorem ofNat_len_sub {i : Nat} (hi : 16 * (i + 1) ≤ reg.len) :
    Int32.ofNat (reg.len - 16 * i) - 16 = Int32.ofNat (reg.len - 16 * (i + 1)) := by
  rw [← Int32.toInt_inj, Int32.toInt_sub, toInt_ofNat_len, toInt_ofNat_len]
  have hlt := reg.len_lt
  rw [show (16 : Int32).toInt = 16 from rfl, Int.bmod_eq_of_le (by omega) (by omega)]
  omega

/-- A round stays in the property while a range is left. -/
theorem InProperty.round {s₀ : NodeLoop} {i : Nat} (hi : i < reg.len / 16)
    (h : InProperty s₀ reg i s) : InProperty s₀ reg (i + 1) s.step := by
  have hle : 16 * (i + 1) ≤ reg.len := by omega
  have hne : Int32.ofNat (reg.len - 16 * i) ≠ 0 := by
    rw [Ne, ← Int32.toInt_inj, toInt_ofNat_len, Int32.toInt_zero]
    omega
  obtain ⟨hplace, hnodes, hroom, hreads, hcalls⟩ := step_range h.place hne h.room
  refine ⟨?_, hnodes.trans h.nodes, hroom, fun r hr => ?_, ?_⟩
  · rw [hplace, ofNat_len_sub hle, Nat.mul_add]
  · rw [hreads] at hr
    cases List.mem_append.1 hr with
    | inl hr => exact h.reads r hr
    | inr hr =>
      obtain ⟨k, hk, rfl⟩ := List.mem_map.1 hr
      rw [List.mem_range] at hk
      right
      dsimp only
      omega
  · rw [hcalls, h.calls, List.range_succ, List.map_append, List.append_assoc]
    rfl

/-- A property whose length is a multiple of 16 is taken apart, and the next node is looked for. -/
theorem reaches_next (hdvd : 16 ∣ reg.len) {nodes : List (Option RegProp)} (hroom : s.Room)
    (hplace : s.place = .node) (hnodes : s.nodes = some reg :: nodes) :
    ∃ s', Reaches step s s' ∧ s'.place = .node ∧ s'.nodes = nodes ∧ s'.Room ∧
      (∀ r ∈ s'.reads, r ∈ s.reads ∨ r.2 < r.1.len) ∧ s'.calls = s.calls ++ reg.ranges := by
  have henter : InProperty { s with nodes } reg 0 s.step := by
    rw [NodeLoop.step, hplace, hnodes]
    exact ⟨rfl, rfl, hroom, fun r hr => .inl hr, (List.append_nil _).symm⟩
  have hround : ∀ i < reg.len / 16, ∀ a, InProperty { s with nodes } reg i a →
      ∃ b, Reaches step a b ∧ InProperty { s with nodes } reg (i + 1) b :=
    fun i hi a ha => ⟨a.step, ⟨1, rfl⟩, ha.round hi⟩
  obtain ⟨s₁, hs₁, h₁⟩ := Reaches.loop hround henter
  have hzero : Int32.ofNat (reg.len - 16 * (reg.len / 16)) = 0 := by
    rw [Nat.mul_div_cancel' hdvd, Nat.sub_self]
    rfl
  have hlast : s₁.step = { s₁ with place := .node } := by
    rw [NodeLoop.step, h₁.place, hzero]
    exact if_pos rfl
  refine ⟨s₁.step, (Reaches.head hs₁).trans ⟨1, rfl⟩, ?_⟩
  rw [hlast]
  exact ⟨rfl, h₁.nodes, h₁.room, h₁.reads, h₁.calls⟩

/-- The loop goes through nodes whose lengths are multiples of 16. -/
theorem reaches_nodes {nodes : List (Option RegProp)} (hdvd : ∀ reg ∈ regs, 16 ∣ reg.len)
    (hroom : s.Room) (hplace : s.place = .node) (hnodes : s.nodes = regs.map some ++ nodes) :
    ∃ s', Reaches step s s' ∧ s'.place = .node ∧ s'.nodes = nodes ∧ s'.Room ∧
      (∀ r ∈ s'.reads, r ∈ s.reads ∨ r.2 < r.1.len) ∧
      s'.calls = s.calls ++ regs.flatMap RegProp.ranges := by
  induction regs generalizing s with
  | nil =>
    exact ⟨s, .refl s, hplace, hnodes, hroom, fun r hr => .inl hr, (List.append_nil _).symm⟩
  | cons reg regs ih =>
    obtain ⟨s₁, hs₁, hplace₁, hnodes₁, hroom₁, hreads₁, hcalls₁⟩ :=
      reaches_next (hdvd reg (List.mem_cons_self ..)) hroom hplace hnodes
    obtain ⟨s', hs', hplace', hnodes', hroom', hreads', hcalls'⟩ :=
      ih (fun reg hreg => hdvd reg (List.mem_cons_of_mem _ hreg)) hroom₁ hplace₁ hnodes₁
    refine ⟨s', hs₁.trans hs', hplace', hnodes', hroom', fun r hr => ?_, ?_⟩
    · cases hreads' r hr with
      | inl hr => exact hreads₁ r hr
      | inr hr => exact .inr hr
    · rw [hcalls', hcalls₁, List.flatMap_cons, List.append_assoc]

/-! ### A length that is not used up -/

/-- The loop is in a property and will stay there, or was stopped. -/
def Lost (s : NodeLoop) : Prop :=
  s.place = .stopped ∨ ∃ reg prop propLen, s.place = .range reg prop propLen ∧
    propLen.toInt % 16 ≠ 0

theorem Lost.not_ended (h : s.Lost) : ¬s.Ended := by
  intro hend
  rcases h with h | ⟨reg, prop, propLen, h, -⟩
  · exact absurd (hend.1.symm.trans h) (by simp)
  · exact absurd (hend.1.symm.trans h) (by simp)

/-- What is left of the length is never a multiple of 16, whether or not it wraps. -/
theorem Lost.step (h : s.Lost) : s.step.Lost := by
  rcases h with h | ⟨reg, prop, propLen, h, hmod⟩
  · left
    rw [NodeLoop.step, h]
    exact h
  · have hne : propLen ≠ 0 := by
      rintro rfl
      exact hmod rfl
    have hmod' : (propLen - 16).toInt % 16 ≠ 0 := by
      rw [Int32.toInt_sub, show (16 : Int32).toInt = 16 from rfl, Int.bmod_def]
      split <;> omega
    rw [NodeLoop.step, h]
    dsimp only
    rw [if_neg hne]
    split
    · exact .inl rfl
    · exact .inr ⟨_, _, _, rfl, hmod'⟩

/-- The loop does not come to its end when a property has a length that is no multiple of 16. -/
theorem not_reaches_ended (hroom : s.Room) (hplace : s.place = .node)
    (hnodes : s.nodes = regs.map some) (hodd : ∃ reg ∈ regs, ¬16 ∣ reg.len) :
    ¬∃ s', Reaches step s s' ∧ s'.Ended := by
  intro hend
  obtain ⟨s', hs', hend⟩ := hend
  induction regs generalizing s with
  | nil =>
    obtain ⟨reg, hreg, -⟩ := hodd
    exact absurd hreg List.not_mem_nil
  | cons reg regs ih =>
    by_cases hdvd : 16 ∣ reg.len
    · obtain ⟨s₁, hs₁, hplace₁, hnodes₁, hroom₁, -⟩ := reaches_next hdvd hroom hplace hnodes
      refine ih hroom₁ hplace₁ hnodes₁ ?_ (hs₁.of_halted hs' hend.step)
      obtain ⟨reg', hreg', hno⟩ := hodd
      cases List.mem_cons.1 hreg' with
      | inl h => exact absurd (h ▸ hdvd) hno
      | inr h => exact ⟨reg', h, hno⟩
    · have hlost : s.step.Lost := by
        rw [NodeLoop.step, hplace, hnodes]
        refine .inr ⟨reg, 0, Int32.ofNat reg.len, rfl, ?_⟩
        have hlen := toInt_ofNat_len reg 0
        rw [Nat.sub_zero] at hlen
        rw [hlen]
        omega
      have hrest := Reaches.of_halted ⟨1, rfl⟩ hs' hend.step
      exact (hrest.invariant hlost fun s hs => hs.step).not_ended hend

/-! ### The allocator -/

theorem lmbAddAll_concat (lmb : Lmb) (ps : List LmbProperty) (p : LmbProperty) :
    lmbAddAll lmb (ps ++ [p]) =
      (lmbAddAll lmb ps).bind fun lmb => (lmbAdd lmb p.base p.size p.tag).map Prod.snd := by
  induction ps generalizing lmb with
  | nil => cases h : lmbAdd lmb p.base p.size p.tag <;> simp [lmbAddAll, h]
  | cons q ps ih => simp [lmbAddAll, ih, Option.bind_assoc]

/-- The allocator has been told of the ranges of the calls. -/
def Told (lmb : Lmb) (s : NodeLoop) : Prop :=
  s.place = .stopped ∨ lmbAddAll (lmbInit lmb) (s.calls.map property) = some s.lmb

theorem Told.step {lmb : Lmb} (h : s.Told lmb) : s.step.Told lmb := by
  obtain ⟨place, nodes, lmb', reads, calls⟩ := s
  rcases h with rfl | h
  · exact .inl rfl
  · dsimp only at h
    cases place with
    | stopped => exact .inl rfl
    | node =>
      cases nodes with
      | nil => exact .inr h
      | cons reg nodes =>
        cases reg with
        | none => exact .inl rfl
        | some reg => exact .inr h
    | range reg prop propLen =>
      simp only [NodeLoop.step]
      split_ifs with hlen
      · exact .inr h
      · split
        · exact .inl rfl
        · next hadd =>
          right
          dsimp only
          rw [List.map_append, List.map_singleton, lmbAddAll_concat, h, Option.bind_some, property,
            hadd]
          rfl

/-- At the end of the loop the allocator is that of `main` with the ranges of the calls. -/
theorem Ended.mainUpTo {lmb : Lmb} (hs : Reaches NodeLoop.step (start lmb regs) s) (hend : s.Ended)
    {b : BootInfo} (hb : b.memory = s.calls) (ps : List LmbProperty) :
    mainUpTo lmb b ps = lmbReserveAll s.lmb ps := by
  have htold : Told lmb s := hs.invariant (.inr rfl) fun s h => h.step
  have hadd : lmbAddAll (lmbInit lmb) b.memoryRanges = some s.lmb := by
    rw [BootInfo.memoryRanges, hb]
    refine htold.resolve_left fun hstop => ?_
    exact absurd (hend.1.symm.trans hstop) (by simp)
  rw [ShieldLoader.mainUpTo, hadd]
  rfl

end NodeLoop

open NodeLoop in
/-- **Memory nodes are parsed inside of their properties** exactly if all lengths are multiples of
16: then the loop comes to its end, has read no other bytes, and has called `lmb_add` for each range
of each property. -/
theorem main_memoryNodes_iff (lmb : Lmb) (regs : List RegProp) :
    (∃ s, Reaches step (start lmb regs) s ∧ s.Ended ∧ s.Parsed regs) ↔
      ∀ reg ∈ regs, 16 ∣ reg.len := by
  constructor
  · intro h
    obtain ⟨s, hs, hend, -⟩ := h
    by_contra hodd
    push Not at hodd
    exact not_reaches_ended (start_room lmb regs) rfl rfl hodd ⟨s, hs, hend⟩
  · intro hdvd
    obtain ⟨s, hs, hplace, hnodes, -, hreads, hcalls⟩ :=
      reaches_nodes hdvd (start_room lmb regs) rfl (List.append_nil _).symm
    refine ⟨s, hs, ⟨hplace, hnodes⟩, fun r hr => ?_, hcalls⟩
    exact (hreads r hr).resolve_left List.not_mem_nil

/-- A property of two cells for the base and one for the size: 512 MiB at 0x80000000. -/
def oneCellSize : RegProp where
  data := fun i => if i = 4 then 0x80 else if i = 8 then 0x20 else 0
  len := 12
  len_lt := by decide

open NodeLoop in
/-- The first round reads past the end and calls `lmb_add`, where there is no room for a range, and
the loop does not come to its end. -/
theorem main_memoryNodes_oneCellSize :
    (¬∃ s, Reaches step (start lmbZero [oneCellSize]) s ∧ s.Ended ∧ s.Parsed [oneCellSize]) ∧
    ∃ s, Reaches step (start lmbZero [oneCellSize]) s ∧ (oneCellSize, 12) ∈ s.reads ∧
      s.calls = [(0x80000000, 0x2000000000000000)] := by
  have hroom := start_room lmbZero [oneCellSize]
  constructor
  · intro h
    obtain ⟨s, hs, hend, -⟩ := h
    exact not_reaches_ended hroom rfl rfl ⟨oneCellSize, by simp, by decide⟩ ⟨s, hs, hend⟩
  · obtain ⟨-, -, -, hreads, hcalls⟩ :=
      @step_range (start lmbZero [oneCellSize]).step oneCellSize 0 12 rfl (by decide) hroom
    refine ⟨_, ⟨2, rfl⟩, ?_, ?_⟩
    · show _ ∈ (start lmbZero [oneCellSize]).step.step.reads
      rw [hreads]
      exact List.mem_append_right _ (List.mem_map.2 ⟨12, by decide, rfl⟩)
    · refine hcalls.trans ?_
      decide

end ShieldLoader
