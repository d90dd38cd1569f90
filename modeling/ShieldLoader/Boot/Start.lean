import ShieldLoader.Boot.Asm

/-!
# The image that `main` finds

`start.S` relocates the image and clears what it takes for the BSS. The bounds of that are not the
addresses `bss_start` and `bss_end` but the words which are stored there, since `ldr` loads from a
label where `adr` takes its address. The image is as intended when what is cleared between these
words was zero, and the BSS was zero already.
-/

namespace ShieldLoader

open Memory

namespace Layout

variable (l : Layout) (base : UInt64)

/-- A relocation of the image in `m` stores to `x`. -/
def Target (m : Memory) (x : UInt64) : Prop :=
  ∃ e ∈ l.relatives base m, Covers (base + e.offset) 8 x

/-- A word between `bss_start` and `bss_end` contains `x`. -/
def Bss (x : UInt64) : Prop :=
  Covers (l.addr base .bssStart) ((l.bssEnd - l.bssStart) / 8 * 8) x

instance (x : UInt64) : Decidable (l.Bss base x) := inferInstanceAs (Decidable (Covers ..))

/-- The image in `m` has addresses, and its relocations are of what comes before `.rela`. -/
structure Fits (m : Memory) : Prop where
  addr : base.toNat + l.relaEnd < 2 ^ 64
  targets : ∀ e ∈ l.relatives base m, e.offset.toNat + 8 ≤ l.relaStart

/-- The memory `m` with the image relocated. -/
structure Relocated (m m₁ : Memory) : Prop where
  target : ∀ e ∈ l.relatives base m, m₁.word (base + e.offset) = base + e.addend
  other : ∀ x, ¬l.Target base m x → m₁ x = m x

/-- The memory in which the program should start when the image was entered with `m`. -/
structure Started (m m' : Memory) : Prop where
  target : ∀ e ∈ l.relatives base m, m'.word (base + e.offset) = base + e.addend
  bss : ∀ x, l.Bss base x → ¬l.Target base m x → m' x = 0
  other : ∀ x, ¬l.Bss base x → ¬l.Target base m x → m' x = m x

end Layout

/-- How many bytes are cleared from `b` on when the words up to `e` are. -/
def clearLength (b e : UInt64) : Nat := if b < e then (e.toNat - b.toNat + 7) / 8 * 8 else 0

/-- The words `b` at `bss_start` and `e` at `bss_end` of the relocated image are bounds between
which nothing is lost, and outside which nothing of the BSS has to be cleared. -/
structure Layout.ClearsBss (l : Layout) (base : UInt64) (m m₁ : Memory) (b e : UInt64) : Prop where
  start : m₁.word (l.addr base .bssStart) = b
  ends : m₁.word (l.addr base .bssEnd) = e
  bounded : b.toNat + clearLength b e < 2 ^ 64
  harmless : ∀ x, Covers b (clearLength b e) x → l.Bss base x ∧ ¬l.Target base m x ∨ m₁ x = 0
  complete : ∀ x, l.Bss base x → ¬l.Target base m x → Covers b (clearLength b e) x ∨ m x = 0

/-! ### Relocations -/

/-- What a round of `reloc_loop` does to the memory. -/
def applyRela (base : UInt64) (m : Memory) (e : RelaEntry) : Memory :=
  if e.info = rAarch64Relative then m.store (base + e.offset) (base + e.addend) else m

/-- What the rounds for these entries do to the memory. -/
def relocate (base : UInt64) (es : List RelaEntry) (m : Memory) : Memory :=
  es.foldl (applyRela base) m

section
variable {base x : UInt64} {m m₁ : Memory} {e : RelaEntry} {es : List RelaEntry}

theorem applyRela_of_not_covers (h : e.info = rAarch64Relative → ¬Covers (base + e.offset) 8 x) :
    applyRela base m e x = m x := by
  rw [applyRela]
  split
  · next hinfo => exact store_of_not_covers (h hinfo)
  · rfl

theorem relocate_concat : relocate base (es ++ [e]) m = applyRela base (relocate base es m) e :=
  List.foldl_append

theorem relocate_of_not_covers
    (h : ∀ e ∈ es, e.info = rAarch64Relative → ¬Covers (base + e.offset) 8 x) :
    relocate base es m x = m x := by
  induction es generalizing m with
  | nil => rfl
  | cons e es ih =>
    have hrest := @ih (applyRela base m e) fun e he => h e (List.mem_cons_of_mem _ he)
    exact hrest.trans (applyRela_of_not_covers (h e (List.mem_cons_self ..)))

/-- Entries that agree with one memory leave its bytes. -/
theorem relocate_of_covers
    (hm₁ : ∀ e ∈ es, e.info = rAarch64Relative → m₁.word (base + e.offset) = base + e.addend)
    (h : ∃ e ∈ es, e.info = rAarch64Relative ∧ Covers (base + e.offset) 8 x) :
    relocate base es m x = m₁ x := by
  induction es generalizing m with
  | nil =>
    obtain ⟨e, he, -⟩ := h
    exact absurd he List.not_mem_nil
  | cons e es ih =>
    have hm₁' : ∀ e ∈ es, e.info = rAarch64Relative → m₁.word (base + e.offset) = base + e.addend :=
      fun e he => hm₁ e (List.mem_cons_of_mem _ he)
    by_cases hlater : ∃ e ∈ es, e.info = rAarch64Relative ∧ Covers (base + e.offset) 8 x
    · exact @ih (applyRela base m e) hm₁' hlater
    · -- no later entry stores there
      have hrest : relocate base es (applyRela base m e) x = applyRela base m e x :=
        relocate_of_not_covers fun e he hinfo hx => hlater ⟨e, he, hinfo, hx⟩
      obtain ⟨e', he', hinfo, hx⟩ := h
      cases List.mem_cons.1 he' with
      | inr he' => exact absurd ⟨e', he', hinfo, hx⟩ hlater
      | inl he' =>
        subst he'
        refine hrest.trans ?_
        rw [applyRela, if_pos hinfo, store_of_covers hx]
        exact (word_eq_iff_covers.1 (hm₁ e' (List.mem_cons_self ..) hinfo) x hx).symm

end

section
variable {l : Layout} {base x : UInt64} {m m₁ m' : Memory}

theorem Layout.mem_relatives {e : RelaEntry} : e ∈ l.relatives base m ↔
    e ∈ (List.range l.relaCount).map (l.rela base m) ∧ e.info = rAarch64Relative := by
  rw [relatives, List.mem_filter, decide_eq_true_eq]

/-- All entries together relocate the image, if that is possible. -/
theorem Layout.Relocated.eq (h : l.Relocated base m m₁) :
    relocate base ((List.range l.relaCount).map (l.rela base m)) m = m₁ := by
  funext x
  by_cases hx : l.Target base m x
  · obtain ⟨e, he, hcov⟩ := hx
    obtain ⟨hmem, hinfo⟩ := mem_relatives.1 he
    exact relocate_of_covers (fun e he hinfo => h.target e (mem_relatives.2 ⟨he, hinfo⟩))
      ⟨e, hmem, hinfo, hcov⟩
  · rw [h.other x hx]
    exact relocate_of_not_covers fun e he hinfo hcov => hx ⟨e, mem_relatives.2 ⟨he, hinfo⟩, hcov⟩

/-- An image that the program can start in can be relocated. -/
theorem Layout.Started.relocated (h : l.Started base m m') : ∃ m₁, l.Relocated base m m₁ := by
  classical
  refine ⟨fun x => if l.Target base m x then m' x else m x, fun e he => ?_, fun x hx => if_neg hx⟩
  rw [← h.target e he]
  exact word_congr fun x hx => if_pos ⟨e, he, hx⟩

/-! ### `reloc_loop` -/

theorem Layout.addr_relaEnd : l.addr base .relaEnd =
    l.addr base .relaStart + UInt64.ofNat (24 * l.relaCount) := by
  rw [addr, addr, offset, offset, relaEnd, UInt64.ofNat_add, UInt64.add_assoc]

theorem Layout.Fits.toNat_addr (h : l.Fits base m) {k : Nat} (hk : k ≤ 24 * l.relaCount) :
    (l.addr base .relaStart + UInt64.ofNat k).toNat = base.toNat + l.relaStart + k := by
  have haddr := h.addr
  rw [relaEnd] at haddr
  have hstart : (UInt64.ofNat l.relaStart).toNat = l.relaStart :=
    UInt64.toNat_ofNat_of_lt_two_pow (by omega)
  have hk' : (UInt64.ofNat k).toNat = k := UInt64.toNat_ofNat_of_lt_two_pow (by omega)
  simp only [Layout.addr, offset, UInt64.toNat_add, hstart, hk']
  omega

/-- No address of the table is that of a relocation. -/
theorem Layout.Fits.not_covers (h : l.Fits base m) {e : RelaEntry} (he : e ∈ l.relatives base m)
    {k : Nat} (hk : k < 24 * l.relaCount) :
    ¬Covers (base + e.offset) 8 (l.addr base .relaStart + UInt64.ofNat k) := by
  have htarget := h.targets e he
  have htable := h.toNat_addr hk.le
  have haddr := h.addr
  rw [relaEnd] at haddr
  rw [Covers, UInt64.toNat_sub, htable, UInt64.toNat_add]
  omega

/-- Relocations leave the table alone. -/
theorem Layout.Fits.word_relocate (h : l.Fits base m) {es : List RelaEntry}
    (hes : ∀ e ∈ es, e ∈ (List.range l.relaCount).map (l.rela base m)) {k : Nat}
    (hk : k + 8 ≤ 24 * l.relaCount) :
    (relocate base es m).word (l.addr base .relaStart + UInt64.ofNat k) =
      m.word (l.addr base .relaStart + UInt64.ofNat k) := by
  refine word_congr fun x hx => relocate_of_not_covers fun e he hinfo hcov => ?_
  have hof : x = l.addr base .relaStart + UInt64.ofNat
      (k + (x - (l.addr base .relaStart + UInt64.ofNat k)).toNat) := by
    rw [UInt64.ofNat_add, ← UInt64.add_assoc, add_sub_toNat]
  rw [hof] at hcov
  refine h.not_covers (mem_relatives.2 ⟨hes e he, hinfo⟩) ?_ hcov
  rw [Covers] at hx
  omega

/-- The machine is at `reloc_loop` and has done `i` entries of the table in `m`. -/
structure Relocating (l : Layout) (base : UInt64) (m : Memory) (i : Nat) (c : Cpu) : Prop where
  pc : c.pc = relocLoop
  x1 : c.x1 = base
  x2 : c.x2 = l.addr base .relaStart + UInt64.ofNat (24 * i)
  x3 : c.x3 = l.addr base .relaEnd
  mem : c.mem = relocate base ((List.range i).map (l.rela base m)) m

section
variable {x0 x1 x2 x3 x4 x5 x30 sp : UInt64} {cf zf : Bool}

/-- A round for a relocation. -/
theorem relocLoop_relative (hx : ¬x3 ≤ x2) (hinfo : m.word (x2 + 8) = rAarch64Relative) :
    (Cpu.step l base)^[9] ⟨x0, x1, x2, x3, x4, x5, x30, sp, cf, zf, relocLoop, m⟩ =
      ⟨x0, x1, x2 + 24, x3, m.word x2, m.word (x2 + 24 + -8) + x1, x30, sp, true, true, relocLoop,
        m.store (m.word x2 + x1) (m.word (x2 + 24 + -8) + x1)⟩ := by
  simp [Cpu.step, asmStart, relocLoop, hx, hinfo]

/-- A round for another entry. -/
theorem relocLoop_other (hx : ¬x3 ≤ x2) (hinfo : m.word (x2 + 8) ≠ rAarch64Relative) :
    (Cpu.step l base)^[5] ⟨x0, x1, x2, x3, x4, x5, x30, sp, cf, zf, relocLoop, m⟩ =
      ⟨x0, x1, x2 + 24, x3, m.word x2, m.word (x2 + 8), x30, sp,
        rAarch64Relative ≤ m.word (x2 + 8), false, relocLoop, m⟩ := by
  simp [Cpu.step, asmStart, relocLoop, hx, hinfo]
  rfl

/-- From the end of the loop to `clear_bss`. -/
theorem relocLoop_done (hx : x3 ≤ x2) :
    (Cpu.step l base)^[6] ⟨x0, x1, x2, x3, x4, x5, x30, sp, cf, zf, relocLoop, m⟩ =
      ⟨x0, m.word (l.addr base .bssStart), m.word (l.addr base .bssEnd), x3, x4, x5, x30,
        m.word (l.addr base .stackEndLiteral), true, x2 = x3, clearLoop, m⟩ := by
  simp [Cpu.step, asmStart, relocLoop, relocDone, clearLoop, hx]
  rfl

end

/-- A round goes from an entry to the next one. -/
theorem Relocating.round (h : l.Fits base m) {i : Nat} (hi : i < l.relaCount) {c : Cpu}
    (hc : Relocating l base m i c) :
    ∃ c', Reaches (Cpu.step l base) c c' ∧ Relocating l base m (i + 1) c' := by
  obtain ⟨x0, x1, x2, x3, x4, x5, x30, sp, cf, zf, pc, mem⟩ := c
  obtain ⟨hpc, hx1, hx2, hx3, hmem⟩ := hc
  dsimp only at hpc hx1 hx2 hx3 hmem
  subst hpc hx1 hx2 hx3
  set a := l.addr x1 .relaStart + UInt64.ofNat (24 * i) with ha
  have hlt : ¬l.addr x1 .relaEnd ≤ a := by
    rw [UInt64.le_iff_toNat_le, Layout.addr_relaEnd, h.toNat_addr le_rfl, ha,
      h.toNat_addr (by omega)]
    omega
  -- the entry is that of the table
  have hword : ∀ k, k + 8 ≤ 24 → mem.word (a + UInt64.ofNat k) = m.word (a + UInt64.ofNat k) := by
    intro k hk
    rw [ha, UInt64.add_assoc, ← UInt64.ofNat_add, hmem]
    refine h.word_relocate (fun e he => ?_) (by omega)
    obtain ⟨j, hj, rfl⟩ := List.mem_map.1 he
    exact List.mem_map.2 ⟨j, List.mem_range.2 ((List.mem_range.1 hj).trans hi), rfl⟩
  have hoffset : mem.word a = (l.rela x1 m i).offset := by
    have := hword 0 (by decide)
    rwa [show UInt64.ofNat 0 = 0 from rfl, UInt64.add_zero] at this
  have hinfo : mem.word (a + 8) = (l.rela x1 m i).info := hword 8 (by decide)
  have haddend : mem.word (a + 24 + -8) = (l.rela x1 m i).addend := by
    have h16 : (24 : UInt64) + -8 = UInt64.ofNat 16 := by decide
    rw [UInt64.add_assoc, h16]
    exact hword 16 (by decide)
  have hnext : a + 24 = l.addr x1 .relaStart + UInt64.ofNat (24 * (i + 1)) := by
    rw [ha, UInt64.add_assoc, Nat.mul_add, UInt64.ofNat_add]
    rfl
  have hrelocate : relocate x1 ((List.range (i + 1)).map (l.rela x1 m)) m =
      applyRela x1 mem (l.rela x1 m i) := by
    rw [List.range_succ, List.map_append, List.map_singleton, relocate_concat, hmem]
  by_cases hrel : (l.rela x1 m i).info = rAarch64Relative
  · refine ⟨_, ⟨9, relocLoop_relative hlt (hinfo.trans hrel)⟩, rfl, rfl, hnext, rfl, ?_⟩
    dsimp only
    rw [hrelocate, applyRela, if_pos hrel, hoffset, haddend, UInt64.add_comm x1, UInt64.add_comm x1]
  · refine ⟨_, ⟨5, relocLoop_other hlt fun h => hrel (hinfo.symm.trans h)⟩, rfl, rfl, hnext, rfl, ?_⟩
    rw [hrelocate, applyRela, if_neg hrel]

/-! ### `clear_bss` -/

/-- The machine is at `clear_bss` and has cleared the `n` words from `b` on. -/
structure Clearing (b e : UInt64) (m : Memory) (n : Nat) (c : Cpu) : Prop where
  pc : c.pc = clearLoop
  x1 : c.x1 = b + UInt64.ofNat (8 * n)
  x2 : c.x2 = e
  mem : c.mem = m.clear b (8 * n)

/-- The image is relocated before anything is cleared. -/
theorem reaches_clearing (h : l.Fits base m) (hrel : l.Relocated base m m₁) {c : Cpu}
    (hpc : c.pc = 0) (hmem : c.mem = m) :
    ∃ c', Reaches (Cpu.step l base) c c' ∧ Clearing (m₁.word (l.addr base .bssStart))
      (m₁.word (l.addr base .bssEnd)) m₁ 0 c' := by
  have hentry : ∃ c', Reaches (Cpu.step l base) c c' ∧ Relocating l base m 0 c' := by
    obtain ⟨x0, x1, x2, x3, x4, x5, x30, sp, cf, zf, pc, mem⟩ := c
    obtain rfl := hpc
    obtain rfl := hmem
    refine ⟨_, ⟨4, rfl⟩, rfl, ?_, ?_, rfl, rfl⟩
    · exact UInt64.add_zero base
    · exact (UInt64.add_zero _).symm
  obtain ⟨c₀, hc₀, h₀⟩ := hentry
  obtain ⟨c₁, hc₁, h₁⟩ := Reaches.loop (fun i hi c hc => Relocating.round h hi hc) h₀
  have hdone := h₁.mem.trans hrel.eq
  obtain ⟨x0, x1, x2, x3, x4, x5, x30, sp, cf, zf, pc, mem⟩ := c₁
  obtain ⟨hpc, hx1, hx2, hx3, -⟩ := h₁
  dsimp only at hpc hx1 hx2 hx3 hdone
  subst hpc hx1 hx2 hx3 hdone
  refine ⟨_, (hc₀.trans hc₁).trans ⟨6, relocLoop_done ?_⟩, rfl, ?_, rfl, rfl⟩
  · exact UInt64.le_of_eq Layout.addr_relaEnd
  · exact (UInt64.add_zero _).symm

section
variable {x0 x1 x2 x3 x4 x5 x30 sp : UInt64} {cf zf : Bool} {b e : UInt64}

/-- A round clears a word. -/
theorem clearLoop_word (hx : ¬x2 ≤ x1) : ∃ cf' zf',
    (Cpu.step l base)^[4] ⟨x0, x1, x2, x3, x4, x5, x30, sp, cf, zf, clearLoop, m⟩ =
      ⟨x0, x1 + 8, x2, x3, x4, x5, x30, sp, cf', zf', clearLoop, m.store x1 0⟩ := by
  simp [Cpu.step, asmStart, clearLoop, hx]

/-- From the end of the loop to `main`. -/
theorem clearLoop_done (hx : x2 ≤ x1) : ∃ x30' cf' zf',
    (Cpu.step l base)^[3] ⟨x0, x1, x2, x3, x4, x5, x30, sp, cf, zf, clearLoop, m⟩ =
      ⟨x0, x1, x2, x3, x4, x5, x30', sp, cf', zf', mainEntry, m⟩ := by
  simp [Cpu.step, asmStart, clearLoop, goToC, mainEntry, hx]

/-- The loop goes on while the length is not reached. -/
theorem lt_of_lt_clearLength (hbound : b.toNat + clearLength b e < 2 ^ 64) {n : Nat}
    (hn : 8 * n < clearLength b e) : ¬e ≤ b + UInt64.ofNat (8 * n) := by
  have hsum : (b + UInt64.ofNat (8 * n)).toNat = b.toNat + 8 * n := by
    rw [UInt64.toNat_add, UInt64.toNat_ofNat_of_lt_two_pow (by omega)]
    omega
  rw [UInt64.le_iff_toNat_le, hsum]
  rw [clearLength] at hn
  split_ifs at hn with hbe
  · omega
  · omega

theorem le_of_clearLength (hbound : b.toNat + clearLength b e < 2 ^ 64) :
    e ≤ b + UInt64.ofNat (clearLength b e) := by
  rw [UInt64.le_iff_toNat_le, UInt64.toNat_add, UInt64.toNat_ofNat_of_lt_two_pow (by omega),
    Nat.mod_eq_of_lt hbound]
  rw [clearLength]
  split_ifs with hbe
  · omega
  · rw [UInt64.lt_iff_toNat_lt] at hbe
    omega

/-- The words between the bounds are cleared, and `main` is called. -/
theorem Clearing.reaches_main (l : Layout) (base : UInt64)
    (hbound : b.toNat + clearLength b e < 2 ^ 64) {c : Cpu} (hc : Clearing b e m 0 c) :
    ∃ c', Reaches (Cpu.step l base) c c' ∧ c'.pc = mainEntry ∧
      c'.mem = m.clear b (clearLength b e) := by
  have h8 : 8 * (clearLength b e / 8) = clearLength b e := by
    rw [clearLength]
    split <;> omega
  have hround : ∀ n < clearLength b e / 8, ∀ c, Clearing b e m n c →
      ∃ c', Reaches (Cpu.step l base) c c' ∧ Clearing b e m (n + 1) c' := by
    intro n hn c hc
    obtain ⟨x0, x1, x2, x3, x4, x5, x30, sp, cf, zf, pc, mem⟩ := c
    obtain ⟨hpc, hx1, hx2, hmem⟩ := hc
    dsimp only at hpc hx1 hx2 hmem
    subst hpc hx1 hx2 hmem
    have hx : ¬x2 ≤ b + UInt64.ofNat (8 * n) := lt_of_lt_clearLength hbound (by omega)
    obtain ⟨cf', zf', hstep⟩ := clearLoop_word hx
    refine ⟨_, ⟨4, hstep⟩, rfl, ?_, rfl, ?_⟩
    · dsimp only
      rw [UInt64.add_assoc, Nat.mul_add, UInt64.ofNat_add]
      rfl
    · exact clear_store (by omega)
  obtain ⟨c₁, hc₁, h₁⟩ := Reaches.loop hround hc
  obtain ⟨x0, x1, x2, x3, x4, x5, x30, sp, cf, zf, pc, mem⟩ := c₁
  obtain ⟨hpc, hx1, hx2, hmem⟩ := h₁
  dsimp only at hpc hx1 hx2 hmem
  subst hpc hx1 hx2 hmem
  rw [h8] at hc₁
  obtain ⟨x30', cf', zf', hstep⟩ := clearLoop_done (le_of_clearLength hbound)
  exact ⟨_, hc₁.trans ⟨3, hstep⟩, rfl, rfl⟩

/-- The machine is in the loop of `clear_bss` and does not leave it. -/
structure Endless (b e : UInt64) (c : Cpu) : Prop where
  pc : c.pc = 17 ∨ c.pc = 18 ∧ c.carry = false ∨ c.pc = 19 ∨ c.pc = 20
  x1 : c.x1.toNat % 8 = b.toNat % 8
  x2 : c.x2 = e

/-- When the addresses wrap before the end, `main` is not reached. -/
theorem Endless.step (hbound : 2 ^ 64 ≤ b.toNat + clearLength b e) {c : Cpu}
    (hc : Endless b e c) : Endless b e (c.step l base) := by
  have hbe : b < e := by
    by_contra hbe
    rw [clearLength, if_neg hbe] at hbound
    have := b.toNat_lt
    omega
  rw [clearLength, if_pos hbe] at hbound
  rw [UInt64.lt_iff_toNat_lt] at hbe
  obtain ⟨x0, x1, x2, x3, x4, x5, x30, sp, cf, zf, pc, mem⟩ := c
  obtain ⟨hpc, hx1, rfl⟩ := hc
  dsimp only at hpc hx1 hbound hbe
  have hlt : ¬x2 ≤ x1 := by
    rw [UInt64.le_iff_toNat_le]
    have := x1.toNat_lt
    omega
  rcases hpc with rfl | ⟨rfl, rfl⟩ | rfl | rfl
  · refine ⟨.inr (.inl ⟨rfl, ?_⟩), hx1, rfl⟩
    simp [Cpu.step, asmStart, hlt]
  · exact ⟨.inr (.inr (.inl rfl)), hx1, rfl⟩
  · refine ⟨.inr (.inr (.inr rfl)), ?_, rfl⟩
    show (x1 + 8).toNat % 8 = _
    rw [UInt64.toNat_add, ← hx1, show (8 : UInt64).toNat = 8 from rfl]
    omega
  · exact ⟨.inl rfl, hx1, rfl⟩

theorem step_main {c : Cpu} (h : c.pc = mainEntry) : c.step l base = c := by
  rw [Cpu.step, h]
  rfl

theorem Endless.not_main {c c' : Cpu} (hbound : 2 ^ 64 ≤ b.toNat + clearLength b e)
    (hc : Endless b e c) (h : Reaches (Cpu.step l base) c c') : c'.pc ≠ mainEntry := by
  have hpc := (h.invariant hc fun c hc => hc.step hbound).pc
  rw [mainEntry]
  omega

/-- The memory that is cleared is as intended if and only if nothing is lost and nothing is left. -/
theorem Layout.Relocated.started_iff (h : l.Relocated base m m₁)
    (hb : m₁.word (l.addr base .bssStart) = b) (he : m₁.word (l.addr base .bssEnd) = e)
    (hbound : b.toNat + clearLength b e < 2 ^ 64) :
    l.Started base m (m₁.clear b (clearLength b e)) ↔ l.ClearsBss base m m₁ b e := by
  constructor
  · intro hs
    refine ⟨hb, he, hbound, fun x hx => ?_, fun x hbss htarget => ?_⟩
    · have hzero : m₁.clear b (clearLength b e) x = 0 := clear_of_covers hx
      by_cases htarget : l.Target base m x
      · obtain ⟨r, hr, hcov⟩ := htarget
        right
        rw [← hzero, word_eq_iff_covers.1 (hs.target r hr) x hcov,
          word_eq_iff_covers.1 (h.target r hr) x hcov]
      · by_cases hbss : l.Bss base x
        · exact .inl ⟨hbss, htarget⟩
        · right
          rw [h.other x htarget, ← hs.other x hbss htarget, hzero]
    · by_cases hx : Covers b (clearLength b e) x
      · exact .inl hx
      · right
        rw [← h.other x htarget, ← hs.bss x hbss htarget, clear_of_not_covers hx]
  · intro hs
    -- outside of the BSS nothing changes
    have hkeep : ∀ x, ¬(l.Bss base x ∧ ¬l.Target base m x) →
        m₁.clear b (clearLength b e) x = m₁ x := by
      intro x hx
      by_cases hcov : Covers b (clearLength b e) x
      · rw [clear_of_covers hcov, (hs.harmless x hcov).resolve_left hx]
      · exact clear_of_not_covers hcov
    refine ⟨fun r hr => ?_, fun x hbss htarget => ?_, fun x hbss htarget => ?_⟩
    · rw [← h.target r hr]
      exact word_congr fun x hx => hkeep x fun hn => hn.2 ⟨r, hr, hx⟩
    · by_cases hcov : Covers b (clearLength b e) x
      · exact clear_of_covers hcov
      · rw [clear_of_not_covers hcov, h.other x htarget]
        exact (hs.complete x hbss htarget).resolve_left hcov
    · rw [hkeep x fun hn => hbss hn.1, h.other x htarget]

end

/-- **The image that `main` finds**: the start-up code comes to `main` with the intended memory
exactly if the relocations agree, and the words at `bss_start` and `bss_end` are bounds between
which there is nothing but zeros and BSS, while the rest of the BSS is zero in the image. -/
theorem asmStart_started_iff (h : l.Fits base m) {c : Cpu} (hpc : c.pc = 0) (hmem : c.mem = m) :
    (∃ c', Reaches (Cpu.step l base) c c' ∧ c'.pc = mainEntry ∧ l.Started base m c'.mem) ↔
      ∃ m₁ b e, l.Relocated base m m₁ ∧ l.ClearsBss base m m₁ b e := by
  constructor
  · intro hmain
    obtain ⟨c', hc', hpc', hs⟩ := hmain
    obtain ⟨m₁, hrel⟩ := hs.relocated
    obtain ⟨c₀, hc₀, h₀⟩ := reaches_clearing h hrel hpc hmem
    set b := m₁.word (l.addr base .bssStart) with hb
    set e := m₁.word (l.addr base .bssEnd) with he
    have hrest := hc₀.of_halted hc' (step_main hpc')
    rcases Nat.lt_or_ge (b.toNat + clearLength b e) (2 ^ 64) with hbound | hbound
    · obtain ⟨c₁, hc₁, hpc₁, hmem₁⟩ := h₀.reaches_main l base hbound
      obtain rfl := hc₁.unique hrest (step_main hpc₁) (step_main hpc')
      rw [hmem₁] at hs
      exact ⟨m₁, b, e, hrel, (hrel.started_iff hb.symm he.symm hbound).1 hs⟩
    · have hend : Endless b e c₀ := by
        refine ⟨.inl h₀.pc, ?_, h₀.x2⟩
        rw [h₀.x1]
        exact congrArg (fun x : UInt64 => x.toNat % 8) (UInt64.add_zero b)
      exact absurd hpc' (hend.not_main hbound hrest)
  · intro hclears
    obtain ⟨m₁, b, e, hrel, hclears⟩ := hclears
    obtain ⟨c₀, hc₀, h₀⟩ := reaches_clearing h hrel hpc hmem
    rw [hclears.start, hclears.ends] at h₀
    obtain ⟨c₁, hc₁, hpc₁, hmem₁⟩ := h₀.reaches_main l base hclears.bounded
    refine ⟨c₁, hc₀.trans hc₁, hpc₁, ?_⟩
    rw [hmem₁]
    exact (hrel.started_iff hclears.start hclears.ends hclears.bounded).2 hclears

end

/-- An image with four words of BSS and the relocation of the header. -/
def smallLayout : Layout where
  stackEndLiteral := 0x98
  bssStart := 0xa0
  bssEnd := 0xc0
  relaCount := 1
  text_le := by decide
  bss_aligned := by decide
  bss_le := by decide

/-- The processor before the image at 0x80080000, with a byte at address 0. Otherwise there are the
bytes of the table only: the offset 8, and `R_AARCH64_RELATIVE`. -/
def smallCpu : Cpu where
  x0 := 0
  x1 := 0
  x2 := 0
  x3 := 0
  x4 := 0
  x5 := 0
  x30 := 0
  sp := 0
  carry := false
  zero := false
  pc := 0
  mem := fun x =>
    if x = 0 then 1
    else if x = 0x800800c0 then 8
    else if x = 0x800800c8 then 0x03
    else if x = 0x800800c9 then 0x04
    else 0

theorem smallLayout_fits : smallLayout.Fits 0x80080000 smallCpu.mem :=
  ⟨by decide, by decide +kernel⟩

/-- What has to hold for this image. -/
theorem asmStart_started_small :
    (∃ c', Reaches (Cpu.step smallLayout 0x80080000) smallCpu c' ∧ c'.pc = mainEntry ∧
      smallLayout.Started 0x80080000 smallCpu.mem c'.mem) ↔
    ∃ m₁ b e, smallLayout.Relocated 0x80080000 smallCpu.mem m₁ ∧
      smallLayout.ClearsBss 0x80080000 smallCpu.mem m₁ b e :=
  asmStart_started_iff smallLayout_fits rfl rfl

/-- What is stored at `bss_end` is the offset 8 of the first relocation, so that the first eight
bytes of the memory are cleared. -/
theorem asmStart_clears_memory :
    smallLayout.Fits 0x80080000 smallCpu.mem ∧
    ¬∃ c', Reaches (Cpu.step smallLayout 0x80080000) smallCpu c' ∧ c'.pc = mainEntry ∧
      smallLayout.Started 0x80080000 smallCpu.mem c'.mem := by
  refine ⟨smallLayout_fits, fun hmain => ?_⟩
  obtain ⟨c', hc', hpc, hs⟩ := hmain
  have hrun : ((Cpu.step smallLayout 0x80080000)^[26] smallCpu).pc = mainEntry ∧
      ((Cpu.step smallLayout 0x80080000)^[26] smallCpu).mem 0 = 0 := by
    decide +kernel
  have hfar : ¬smallLayout.Bss 0x80080000 0 ∧
      ∀ e ∈ smallLayout.relatives 0x80080000 smallCpu.mem, ¬Covers (0x80080000 + e.offset) 8 0 := by
    decide +kernel
  obtain rfl := Reaches.unique ⟨26, rfl⟩ hc' (step_main hrun.1) (step_main hpc)
  have hzero := hs.other 0 hfar.1 fun htarget => by
    obtain ⟨e, he, hcov⟩ := htarget
    exact hfar.2 e he hcov
  rw [hrun.2] at hzero
  exact absurd hzero (by decide)

end ShieldLoader
