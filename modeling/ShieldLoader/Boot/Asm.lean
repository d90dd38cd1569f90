import ShieldLoader.Data.Machine

/-!
# The start-up code

`start.S` up to its call of `main`, as a machine that carries out one instruction after the other,
and the sections of `boot.lds` that it works on. Instructions are fetched apart from the memory of
the machine.
-/

namespace ShieldLoader

/-- A register; `xzr` reads as zero and keeps nothing. -/
inductive Reg where
  | x0 | x1 | x2 | x3 | x4 | x5 | x30 | xzr
  deriving DecidableEq, Repr

/-- The labels of data. -/
inductive Label where
  | imageStart | stackEndLiteral | bssStart | bssEnd | relaStart | relaEnd
  deriving DecidableEq, Repr

/-- An instruction, with the index of the one it branches to. -/
inductive Instr where
  | adr (d : Reg) (label : Label)
  | cmp (n m : Reg)
  | cmpImm (n : Reg) (imm : UInt64)
  | b (target : Nat)
  | bhs (target : Nat)
  | bne (target : Nat)
  | bl (target : Nat)
  /-- `ldp t, t', [n], #imm`. -/
  | ldpPost (t t' n : Reg) (imm : UInt64)
  /-- `ldr t, [n, #imm]`. -/
  | ldr (t n : Reg) (imm : UInt64)
  /-- `ldr t, label`: the word at the label. -/
  | ldrLabel (t : Reg) (label : Label)
  | add (d n m : Reg)
  /-- `str t, [n, m]`. -/
  | str (t n m : Reg)
  /-- `str t, [n], #imm`. -/
  | strPost (t n : Reg) (imm : UInt64)
  /-- `mov sp, n`. -/
  | movSp (n : Reg)
  deriving DecidableEq, Repr

/-- The sections of `boot.lds`, at offsets from `image_start`; `.rela` has `relaCount` entries and
ends the image. -/
structure Layout where
  /-- Where the assembler puts the literal for `stack_end`. -/
  stackEndLiteral : Nat
  bssStart : Nat
  bssEnd : Nat
  relaCount : Nat
  text_le : stackEndLiteral + 8 ≤ bssStart
  bss_aligned : bssStart % 0x20 = 0
  bss_le : bssStart ≤ bssEnd

namespace Layout

variable (l : Layout)

/-- `rela_start`. -/
def relaStart : Nat := (l.bssEnd + 0x1f) / 0x20 * 0x20

/-- `rela_end` and `image_end`. -/
def relaEnd : Nat := l.relaStart + 24 * l.relaCount

def offset : Label → Nat
  | .imageStart => 0
  | .stackEndLiteral => l.stackEndLiteral
  | .bssStart => l.bssStart
  | .bssEnd => l.bssEnd
  | .relaStart => l.relaStart
  | .relaEnd => l.relaEnd

/-- The address of a label of the image that is loaded at `base`. -/
def addr (base : UInt64) (label : Label) : UInt64 := base + UInt64.ofNat (l.offset label)

end Layout

/-- The state of the processor. -/
structure Cpu where
  x0 : UInt64
  x1 : UInt64
  x2 : UInt64
  x3 : UInt64
  x4 : UInt64
  x5 : UInt64
  x30 : UInt64
  sp : UInt64
  carry : Bool
  zero : Bool
  /-- The index of the next instruction. -/
  pc : Nat
  mem : Memory

namespace Cpu

@[simp]
def get (c : Cpu) : Reg → UInt64
  | .x0 => c.x0
  | .x1 => c.x1
  | .x2 => c.x2
  | .x3 => c.x3
  | .x4 => c.x4
  | .x5 => c.x5
  | .x30 => c.x30
  | .xzr => 0

@[simp]
def set (c : Cpu) (r : Reg) (v : UInt64) : Cpu :=
  match r with
  | .x0 => { c with x0 := v }
  | .x1 => { c with x1 := v }
  | .x2 => { c with x2 := v }
  | .x3 => { c with x3 := v }
  | .x4 => { c with x4 := v }
  | .x5 => { c with x5 := v }
  | .x30 => { c with x30 := v }
  | .xzr => c

/-- The flags of the comparison of `a` with `b`. -/
@[simp]
def compare (c : Cpu) (a b : UInt64) : Cpu := { c with carry := b ≤ a, zero := a = b }

@[simp]
def next (c : Cpu) : Cpu := { c with pc := c.pc + 1 }

@[simp]
def jump (c : Cpu) (target : Nat) : Cpu := { c with pc := target }

/-- What an instruction does. -/
@[simp]
def exec (l : Layout) (base : UInt64) (c : Cpu) : Instr → Cpu
  | .adr d label => (c.set d (l.addr base label)).next
  | .cmp n m => (c.compare (c.get n) (c.get m)).next
  | .cmpImm n imm => (c.compare (c.get n) imm).next
  | .b target => c.jump target
  | .bhs target => if c.carry then c.jump target else c.next
  | .bne target => if c.zero then c.next else c.jump target
  -- `asm_real` is behind the header, 0x40 bytes from `image_start`
  | .bl target => (c.set .x30 (base + UInt64.ofNat (0x40 + 4 * c.pc))).jump target
  | .ldpPost t t' n imm =>
    let a := c.get n
    (((c.set t (c.mem.word a)).set t' (c.mem.word (a + 8))).set n (a + imm)).next
  | .ldr t n imm => (c.set t (c.mem.word (c.get n + imm))).next
  | .ldrLabel t label => (c.set t (c.mem.word (l.addr base label))).next
  | .add d n m => (c.set d (c.get n + c.get m)).next
  | .str t n m => { c with mem := c.mem.store (c.get n + c.get m) (c.get t) }.next
  | .strPost t n imm =>
    let a := c.get n
    ({ c with mem := c.mem.store a (c.get t) }.set n (a + imm)).next
  | .movSp n => { c with sp := c.get n }.next

end Cpu

/-! ### The code -/

/-- `asm_real`. -/
def asmReal : Nat := 1

/-- `reloc_loop`. -/
def relocLoop : Nat := 4

/-- `reloc_done`, `load_stack`. -/
def relocDone : Nat := 13

/-- The label `1` after `clear_bss`. -/
def clearLoop : Nat := 17

/-- `go_to_c`. -/
def goToC : Nat := 21

/-- `main`. -/
def mainEntry : Nat := 22

/-- `R_AARCH64_RELATIVE`. -/
def rAarch64Relative : UInt64 := 0x403

/-- The instructions from `asm_start` to the call of `main`, without the words between. -/
def asmStart : List Instr :=
  [.b asmReal,
    -- asm_real
    .adr .x1 .imageStart,
    .adr .x2 .relaStart,
    .adr .x3 .relaEnd,
    -- reloc_loop
    .cmp .x2 .x3,
    .bhs relocDone,
    .ldpPost .x4 .x5 .x2 24,
    .cmpImm .x5 rAarch64Relative,
    .bne relocLoop,
    .ldr .x5 .x2 (-8),
    .add .x5 .x5 .x1,
    .str .x5 .x4 .x1,
    .b relocLoop,
    -- reloc_done
    .ldrLabel .x1 .stackEndLiteral,
    .movSp .x1,
    -- clear_bss
    .ldrLabel .x1 .bssStart,
    .ldrLabel .x2 .bssEnd,
    .cmp .x1 .x2,
    .bhs goToC,
    .strPost .xzr .x1 8,
    .b clearLoop,
    -- go_to_c
    .bl mainEntry]

/-- A step of the machine, which stands still in `main`. -/
def Cpu.step (l : Layout) (base : UInt64) (c : Cpu) : Cpu :=
  match asmStart[c.pc]? with
  | none => c
  | some i => c.exec l base i

/-! ### Relocations -/

/-- `rela_entry_t`. -/
structure RelaEntry where
  offset : UInt64
  info : UInt64
  addend : UInt64
  deriving DecidableEq, Repr

/-- The entry of `.rela` with number `i`. -/
def Layout.rela (l : Layout) (base : UInt64) (m : Memory) (i : Nat) : RelaEntry :=
  let a := l.addr base .relaStart + UInt64.ofNat (24 * i)
  ⟨m.word a, m.word (a + 8), m.word (a + 16)⟩

/-- The entries of `.rela` that are `R_AARCH64_RELATIVE`. -/
def Layout.relatives (l : Layout) (base : UInt64) (m : Memory) : List RelaEntry :=
  ((List.range l.relaCount).map (l.rela base m)).filter fun e => e.info = rAarch64Relative

end ShieldLoader
