import ShieldLoader.Fdt.Encode

/-!
# The memory reservation map

The map is a list of addresses and sizes up to the first size that is zero.
-/

namespace ShieldLoader

open Fuel

/-- The entries of the map. -/
structure Fdt.RsvAt (d : Fdt) (rsv : List (UInt64 × UInt64)) : Prop where
  entry : ∀ i (h : i < rsv.length), fdt64 d.mem (fdtMemRsv d i) = rsv[i].1 ∧
    fdt64 d.mem (fdtMemRsv d i + 8) = rsv[i].2
  size_ne : ∀ r ∈ rsv, r.2 ≠ 0
  stop : fdt64 d.mem (fdtMemRsv d rsv.length + 8) = 0
  length_lt : rsv.length < 2 ^ 31

section
variable {d : Fdt} {rsv : List (UInt64 × UInt64)}

theorem fdtNumMemRsv.loop_count (h : d.RsvAt rsv) {i : Nat} (hi : i ≤ rsv.length) :
    Yields (fun fuel => loop (fdtNumMemRsv.turn d) fuel i) rsv.length := by
  have hlt := h.length_lt
  induction hk : rsv.length - i generalizing i with
  | zero =>
    obtain rfl : i = rsv.length := by omega
    refine Yields.loop_done (.const fun fuel => ?_)
    rw [turn, if_neg (not_not_intro h.stop)]
  | succ k ih =>
    have hlt' : i < rsv.length := by omega
    have hne : fdt64 d.mem (fdtMemRsv d i + 8) ≠ 0 := by
      rw [(h.entry i hlt').2]
      exact h.size_ne _ (List.getElem_mem hlt')
    have hcast : castInt ((i : Int) + 1) = (i + 1 : Nat) := castInt_of_lt (by omega) (by omega)
    refine Yields.loop_next (.const fun fuel => ?_) (ih hlt' (by omega))
    rw [turn, if_pos hne, hcast]

/-- `fdt_num_mem_rsv`. -/
theorem Fdt.RsvAt.num (h : d.RsvAt rsv) : Yields (fun fuel => fdtNumMemRsv d fuel) rsv.length :=
  fdtNumMemRsv.loop_count h (Nat.zero_le _)

/-- `fdt_get_mem_rsv`. -/
theorem Fdt.RsvAt.get (h : d.RsvAt rsv) (hheader : fdtCheckHeader d = 0) {i : Nat}
    (hi : i < rsv.length) : fdtGetMemRsv d i = (0, some rsv[i]) := by
  rw [fdtGetMemRsv, if_neg (not_not_intro hheader), (h.entry i hi).1, (h.entry i hi).2]

end

/-- The map that was written out. -/
theorem Fdt.Written.rsvAt {d : Fdt} {s : Dtb} (h : d.Written s) : d.RsvAt s.rsv := by
  have hoff : (fdtOffMemRsvmap d).toNat = 40 :=
    h.header (show 4 < 10 by decide) (show 40 < 2 ^ 32 by decide)
  have hptr (i : Nat) : fdtMemRsv d i = d.addr + UInt64.ofNat 40 + UInt64.ofNat (16 * i) := by
    rw [fdtMemRsv, toUInt64_eq, hoff, show (16 : Int) * i = (16 * i : Nat) by omega,
      uInt64_ofInt_natCast]
  have hmap : d.mem.Holds (d.addr + UInt64.ofNat 40) s.rsvBytes := by
    have hholds := (Memory.holds_append.1 h.holds).2
    rw [s.length_headerBytes] at hholds
    exact (Memory.holds_append.1 hholds).1
  have hentry (r : UInt64 × UInt64) :
      (bigBytes 8 r.1.toNat ++ bigBytes 8 r.2.toNat).length = 16 := by
    rw [List.length_append, length_bigBytes, length_bigBytes]
  have hlen : (s.rsv.flatMap fun r => bigBytes 8 r.1.toNat ++ bigBytes 8 r.2.toNat).length =
      16 * s.rsv.length := by
    have hall := s.length_rsvBytes
    rw [Dtb.rsvBytes, List.length_append, length_bigBytes] at hall
    omega
  obtain ⟨hentries, hstop⟩ := Memory.holds_append.1 hmap
  refine ⟨fun i hi => ?_, h.good.rsv, ?_, ?_⟩
  · have hat := Memory.holds_append.1 (Memory.holds_flatMap hentry hentries hi)
    rw [hptr]
    refine ⟨UInt64.toNat_inj.1 (fdt64_of_holds hat.1 (UInt64.toNat_lt _)), ?_⟩
    have hsize := hat.2
    rw [length_bigBytes] at hsize
    exact UInt64.toNat_inj.1 (fdt64_of_holds hsize (UInt64.toNat_lt _))
  · rw [hlen, show bigBytes 16 0 = bigBytes 8 0 ++ bigBytes 8 0 from rfl, Memory.holds_append,
      length_bigBytes] at hstop
    rw [hptr]
    exact UInt64.toNat_inj.1 (fdt64_of_holds hstop.2 (by decide))
  · have hlt := h.good.totalsize_lt
    have hle := Fdt.Written.le_totalsize s
    rw [s.length_rsvBytes] at hle
    omega

/-- **The reservation map is read back from a blob**: the number of its entries, and each one. -/
theorem fdtGetMemRsv_written {d : Fdt} {s : Dtb} (h : d.Written s) :
    Yields (fun fuel => fdtNumMemRsv d fuel) s.rsv.length ∧
      ∀ i (hi : i < s.rsv.length), fdtGetMemRsv d i = (0, some s.rsv[i]) :=
  ⟨h.rsvAt.num, fun _ hi => h.rsvAt.get h.checkHeader hi⟩

theorem fdtGetMemRsv_written_small :
    Yields (fun fuel => fdtNumMemRsv (smallDtb.load 0x83000000) fuel) smallDtb.rsv.length ∧
      ∀ i (hi : i < smallDtb.rsv.length),
        fdtGetMemRsv (smallDtb.load 0x83000000) i = (0, some smallDtb.rsv[i]) :=
  fdtGetMemRsv_written smallDtb_written

end ShieldLoader
