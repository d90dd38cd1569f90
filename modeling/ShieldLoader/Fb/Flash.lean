import ShieldLoader.Data.Machine
import ShieldLoader.Fb.Image

/-!
# Images that are started

`flash:run` starts what is at `last_loaded`, which is set before the first byte of a download comes.
That all of it has come is known only when `load_rem` is zero at the command, and where the image is
entered is what a field of its header says.
-/

namespace ShieldLoader

open EStateM Usbd PollInput

/-! ### What has been received -/

/-- The receives of the download, after a step from `s` to `s'`: where they have written, and how
much by what the descriptor says. A download that is accepted begins anew. -/
def fbReceived (st : UsbdStep) (s s' : Fb) (w : List (UInt64 × Nat)) : List (UInt64 × Nat) :=
  match st with
  | .complete ix =>
    if ix ≠ ep1OutReq.ix then w
    else if Receiving s then
      if s.failed ix then w
      else w ++ [(s.bufferAddr ep1OutReq (s.req ep1OutReq).buffer,
        ((s.completed ep1OutReq).req ep1OutReq).ioDone.toNat)]
    else if Receiving s' then []
    else w
  | _ => w

/-- The receives of the last download in the run. -/
def fbRunReceived (size fdt : UInt64) (inps : List PollInput) (m : Fb) : List (UInt64 × Nat) :=
  match fbLaunch size fdt m with
  | .ok _ s => Ghost (UsbdStep.run fbClient) fbReceived (inps.flatMap PollInput.steps) s []
  | .error _ _ => []

/-- A receive of the list has written to `x`. -/
def Received (w : List (UInt64 × Nat)) (x : UInt64) : Prop := ∃ r ∈ w, Memory.Covers r.1 r.2 x

/-- The last download has come in full, and `entry` is in it. -/
structure FullyLoaded (w : List (UInt64 × Nat)) (entry : UInt64) (s : Fb) : Prop where
  rem : s.ctx.loadRem = 0
  received : ∀ i < s.ctx.loadSize.toNat, Received w (s.ctx.lastLoaded + UInt64.ofNat i)
  le : s.ctx.lastLoaded.toNat ≤ entry.toNat
  lt : entry.toNat < s.ctx.lastLoaded.toNat + s.ctx.loadSize.toNat

/-! ### When an image is started -/

/-- What the header of the image says of its entry: the offset in it. -/
def Usbd.entryOffset (s : Fb) : UInt64 :=
  if memcmp (s.load s.ctx.lastLoaded bootMagic.length) bootMagic then
    s.loadWord (s.ctx.lastLoaded + bootImgPageSize) 4
  else 0

/-- The offset is less than the size of the image, and can be added to its address. -/
def EntryInside (s : Fb) : Prop :=
  s.entryOffset.toNat < s.ctx.loadSize.toNat ∧
    s.ctx.lastLoaded.toNat + s.entryOffset.toNat < 2 ^ 64

instance (s : Fb) : Decidable (EntryInside s) := inferInstanceAs (Decidable (_ ∧ _))

instance (s : Fb) : Decidable (FlashPending s) := inferInstanceAs (Decidable (_ = _))

/-- The command is `flash:run`. -/
def FbSelected.IsFlashRun : FbSelected → Bool
  | .flash cmd => strcmp cmd (bytes "run")
  | .oem _ | .reboot _ | .download _ | .unknown => false

/-- A `flash:run` of the step that finds a download finds all of it, and the image that is about to
be started is entered where it is. -/
def flashGood (st : UsbdStep) (s : Fb) : Prop :=
  (∀ sel ∈ st.selected s, sel.IsFlashRun → s.ctx.lastLoaded ≠ 0 → s.ctx.loadRem = 0) ∧
    (FlashPending s → EntryInside s)

instance (st : UsbdStep) (s : Fb) : Decidable (flashGood st s) :=
  match hsel : st.selected s with
  | none => decidable_of_iff (FlashPending s → EntryInside s) (by simp [flashGood, hsel])
  | some sel =>
    decidable_of_iff ((sel.IsFlashRun → s.ctx.lastLoaded ≠ 0 → s.ctx.loadRem = 0) ∧
      (FlashPending s → EntryInside s)) (by simp [flashGood, hsel])

/-- The receives so far are the bytes that do not remain, and an image that is about to be started
has come in full. -/
structure Tracked (w : List (UInt64 × Nat)) (s : Fb) : Prop where
  loaded : s.ctx.lastLoaded ≠ 0 → ∃ n, s.ctx.loadRem = s.ctx.loadSize - UInt64.ofNat n ∧
    ∀ i < n, Received w (s.ctx.lastLoaded + UInt64.ofNat i)
  flash : FlashPending s → ¬Receiving s ∧ s.ctx.lastLoaded ≠ 0 ∧ s.ctx.loadRem = 0

section
variable {w : List (UInt64 × Nat)} {s s' : Fb}

theorem Usbd.flashEntry_eq : s.flashEntry = s.ctx.lastLoaded + s.entryOffset := by
  rw [flashEntry, entryOffset]
  split
  · exact UInt64.add_comm ..
  · exact (UInt64.add_zero _).symm

theorem Tracked.of_load (h : Tracked w s) (hl : s'.ctx.load = s.ctx.load)
    (hflash : FlashPending s' → FlashPending s) (hrecv : Receiving s' → Receiving s) :
    Tracked w s' := by
  simp only [FbMem.load, Prod.mk.injEq] at hl
  obtain ⟨h1, h2, h3, -⟩ := hl
  refine ⟨?_, fun hf => ?_⟩
  · rw [h1, h2, h3]
    exact h.loaded
  · obtain ⟨hno, hne, hrem⟩ := h.flash (hflash hf)
    exact ⟨fun hr => hno (hrecv hr), by rwa [h1], by rwa [h3]⟩

/-- An image that is started has come in full when nothing remains. -/
theorem Tracked.received (h : Tracked w s) (h0 : s.ctx.lastLoaded ≠ 0) (hrem : s.ctx.loadRem = 0) :
    ∀ i < s.ctx.loadSize.toNat, Received w (s.ctx.lastLoaded + UInt64.ofNat i) := by
  obtain ⟨n, hn, hall⟩ := h.loaded h0
  intro i hi
  apply hall
  -- `n` is the size, or more than that by a multiple of `2 ^ 64`
  have hsize : UInt64.ofNat n = s.ctx.loadSize := by
    rwa [hrem, UInt64.eq_sub_iff_add_eq, UInt64.zero_add] at hn
  rw [← hsize, UInt64.toNat_ofNat'] at hi
  exact hi.trans_le (Nat.mod_le _ _)

theorem SameEp1.tracked (h : SameEp1 s s') (ht : Tracked w s) : Tracked w s' := by
  refine ht.of_load (by rw [h.ctx]) (fun hf => ?_) fun hr => h.symm.receiving hr
  rwa [FlashPending, h.inReq] at hf

theorem Usbd.Keeps.symm {W : Req → Prop} (h : Keeps W s s') : Keeps W s' s :=
  ⟨fun ix hix => (h.reqs ix hix).symm, fun r hr => (h.req r hr).symm,
    fun r hr => (h.small r hr).symm, h.smallAddr.symm, h.hs.symm, h.descs.symm,
    h.currentConfig.symm, h.epCtrl.symm, h.devAddr.symm⟩

/-- A callback of the IN request. -/
theorem InDone.tracked {s₁ : Fb} (h₁ : InTaken s s₁) (h : InDone s₁ s') (ht : Tracked w s) :
    Tracked w s' := by
  have hl : s'.ctx.load = s.ctx.load := by rw [h.load, h₁.ctx]
  refine ht.of_load hl (fun hf => ?_) fun hr => ?_
  · exact h₁.complete.symm.trans (h.flash hf)
  · exact hr.of_keeps (h₁.keeps.trans h.keeps).symm hl.symm

/-! ### Callbacks of the OUT request -/

/-- A command. -/
theorem Answered.tracked {sel : FbSelected} (h : Answered sel s s')
    (hgood : sel.IsFlashRun → s.ctx.lastLoaded ≠ 0 → s.ctx.loadRem = 0) (ht : Tracked w s) :
    Tracked (if Receiving s' then [] else w) s' := by
  have hpending : ∀ {k : FbComplete}, k.IsOem → Busy (some (.client k)) s' → ¬FlashPending s' := by
    intro k hk hb hf
    obtain rfl : k = .cmdFlashComplete := by simpa [FlashPending, hb.2] using hf
    exact absurd hk (by decide)
  cases h with
  | responds hload hout hk hin =>
    rw [if_neg hout.not_receiving]
    cases hload with
    | inl hload =>
      exact ht.of_load hload (fun hf => absurd hf (hpending hk hin)) fun hr =>
        absurd hr hout.not_receiving
    | inr h0 => exact ⟨fun hne => absurd h0 hne, fun hf => absurd hf (hpending hk hin)⟩
  | flash hsel hrun hload hloaded hout hin =>
    rw [if_neg hout.not_receiving]
    have hrem := hgood (by rw [hsel]; exact hrun) hloaded
    have hkept := hload
    simp only [FbMem.load, Prod.mk.injEq] at hkept
    obtain ⟨h1, h2, h3, -⟩ := hkept
    refine ⟨?_, fun _ => ⟨hout.not_receiving, by rwa [h1], by rwa [h3]⟩⟩
    rw [h1, h2, h3]
    exact ht.loaded
  | download hout hloaded hrem hin =>
    rw [if_pos hout]
    refine ⟨fun _ => ⟨0, ?_, fun i hi => absurd hi (Nat.not_lt_zero i)⟩, fun hf => ?_⟩
    · rw [hrem]
      exact (UInt64.sub_zero _).symm
    · exact absurd (hin.2.symm.trans hf) (by simp)

/-- Bytes that are written behind those that have come. -/
theorem Received.append {a b : UInt64} {n : Nat} {k : UInt32}
    (h : ∀ i < n, Received w (a + UInt64.ofNat i)) (hb : b = a + UInt64.ofNat n) :
    ∀ i < n + k.toNat, Received (w ++ [(b, k.toNat)]) (a + UInt64.ofNat i) := by
  intro i hi
  cases Nat.lt_or_ge i n with
  | inl hlt =>
    obtain ⟨r, hr, hcov⟩ := h i hlt
    exact ⟨r, List.mem_append_left _ hr, hcov⟩
  | inr hge =>
    refine ⟨(b, k.toNat), List.mem_append_right _ (List.mem_singleton_self _), ?_⟩
    obtain ⟨j, rfl⟩ := Nat.exists_eq_add_of_le hge
    have hk := k.toNat_lt
    have hcov := @Memory.covers_add b k.toNat (by omega) j (by omega)
    rwa [hb, UInt64.add_assoc, ← UInt64.ofNat_add, ← hb] at hcov

/-- The OUT request has been called back, with this much of the download left then. -/
theorem OutDone.tracked {error : Bool} {rem : UInt64} (h : OutDone error rem s s')
    (hout : Listening s ∨ Receiving s)
    (hgood : Listening s → error = false → (fbSelect s.commandText).IsFlashRun →
      s.ctx.lastLoaded ≠ 0 → s.ctx.loadRem = 0)
    {w' : List (UInt64 × Nat)}
    (hlisten : Listening s → w' = if Receiving s' then [] else w)
    (hrecv : Receiving s → s.ctx.lastLoaded ≠ 0 → ∃ n, rem = s.ctx.loadSize - UInt64.ofNat n ∧
      ∀ i < n, Received w' (s.ctx.lastLoaded + UInt64.ofNat i)) (ht : Tracked w s) :
    Tracked w' s' := by
  cases hout with
  | inl hl =>
    rw [hlisten hl]
    cases error with
    | true =>
      obtain ⟨hl', hctx, -, hreq⟩ := h.failed hl rfl
      rw [if_neg hl'.not_receiving]
      refine ht.of_load (by rw [hctx]) (fun hf => ?_) fun hr => absurd hr hl'.not_receiving
      rwa [FlashPending, hreq] at hf
    | false => exact (h.command hl rfl).2.tracked (hgood hl rfl) ht
  | inr hr =>
    obtain ⟨-, hload, hlast, hmore⟩ := h.data hr
    simp only [FbMem.load, Prod.mk.injEq] at hload
    obtain ⟨h1, h2, h3, -⟩ := hload
    refine ⟨?_, fun hf => ?_⟩
    · rw [h1, h2, h3]
      exact hrecv hr
    · by_cases hrem : rem = 0
      · exact absurd ((hlast hrem).2.2.symm.trans hf) (by simp)
      · rw [FlashPending, (hmore hrem).2.2] at hf
        exact absurd hr (ht.flash hf).1

/-! ### Steps -/

/-- The OUT request waits when it has been called back and waits again. -/
theorem OutDone.waits {error : Bool} {rem : UInt64} (h : OutDone error rem s s') (hs : FbOk s)
    (hs' : FbOk s') : Listening s ∨ Receiving s := by
  have hslot : s'.reqs ep1OutReq.ix = some ep1OutReq := h.out.elim (·.slot) (·.slot)
  have hcfg : Configured s' := hs'.ep1.resolve_left fun hu => by simp [hu.out] at hslot
  cases hs.ep1 with
  | inl hu =>
    have h01 : (0 : UInt8) = 1 := hu.config.symm.trans (h.keeps.currentConfig.symm.trans hcfg.config)
    exact absurd h01 (by decide)
  | inr hc => exact hc.out

/-- A receive is completed. -/
theorem tracked_receive (hr : Receiving s) (h0 : s.ctx.lastLoaded ≠ 0) (ht : Tracked w s) :
    ∃ n, remDone s = s.ctx.loadSize - UInt64.ofNat n ∧ ∀ i < n,
      Received (if s.failed ep1OutReq.ix then w
        else w ++ [(s.bufferAddr ep1OutReq (s.req ep1OutReq).buffer,
          ((s.completed ep1OutReq).req ep1OutReq).ioDone.toNat)])
        (s.ctx.lastLoaded + UInt64.ofNat i) := by
  obtain ⟨n, hn, hall⟩ := ht.loaded h0
  have herr : ((s.completed ep1OutReq).req ep1OutReq).error = s.failed ep1OutReq.ix := by
    rw [completed_req, Function.update_self]
    rfl
  rw [remDone, remAfter, herr, completed_ctx]
  split
  · exact ⟨n, hn, hall⟩
  · set io := ((s.completed ep1OutReq).req ep1OutReq).ioDone
    have hoff : s.ctx.loadSize - s.ctx.loadRem = UInt64.ofNat n := by
      rw [eq_comm, UInt64.eq_sub_iff_add_eq, hn, UInt64.add_comm, UInt64.sub_add_cancel]
    have hbuffer : s.bufferAddr ep1OutReq (s.req ep1OutReq).buffer =
        s.ctx.lastLoaded + UInt64.ofNat n := by
      rw [hr.buffer, bufferAddr, hoff]
    refine ⟨n + io.toNat, ?_, Received.append hall hbuffer⟩
    rw [hn, UInt64.eq_sub_iff_add_eq, UInt64.ofNat_add, UInt64.ofNat_uInt32ToNat,
      UInt64.add_comm (UInt64.ofNat n), ← UInt64.add_assoc, UInt64.sub_add_cancel,
      UInt64.sub_add_cancel]

/-- **A step keeps track of the download** when it starts in a good state. -/
theorem StepDone.tracked {st : UsbdStep} (hs : FbOk s) (hs' : FbOk s') (hg : flashGood st s)
    (hd : StepDone s s' st) (ht : Tracked w s) : Tracked (fbReceived st s s' w) s' := by
  cases hd with
  | init h =>
    refine ht.of_load h.load h.flash fun hr => ?_
    exact absurd (h.unconfigured.out.symm.trans hr.slot) (by simp)
  | flush h | disable h | change h => exact h.sameEp1.tracked ht
  | finish h =>
    subst h
    exact (finishAll_untouched _ s).1.sameEp1.tracked ht
  | sweep h =>
    cases h with
    | empty _ h =>
      subst h
      exact ht
    | ep0 _ hk hctx => exact (SameEp1.of_keeps hk hctx).tracked ht
    | ep1Out _ h =>
      refine h.tracked (h.waits hs hs') (fun _ he => absurd he (by simp)) (fun hl => ?_)
        (fun _ => ht.loaded) ht
      exact (if_neg (h.failed hl rfl).1.not_receiving).symm
    | ep1In _ h₁ _ h => exact h.tracked h₁ ht
  | complete h =>
    cases h with
    | ep0Out hk hctx => exact (SameEp1.of_keeps hk hctx).tracked ht
    | ep0In hk hctx => exact (SameEp1.of_keeps hk hctx).tracked ht
    | ep1Out h =>
      refine h.tracked (h.waits hs hs') (fun hl he => ?_) (fun hl => ?_) (fun hr h0 => ?_) ht
      · apply hg.1
        exact if_pos ⟨rfl, hl, he⟩
      · exact if_neg hl.not_receiving
      · obtain ⟨n, hn, hall⟩ := tracked_receive hr h0 ht
        refine ⟨n, hn, ?_⟩
        rwa [fbReceived, if_neg (not_not.2 rfl), if_pos hr]
    | ep1In h₁ h => exact h.tracked h₁ ht
  | setup h =>
    cases h with
    | stalled _ h => exact h.sameEp1.tracked ht
    | answered _ _ h => exact h.tracked ht
    | deconfigured _ h h' =>
      refine h'.tracked (w := w) (ht.of_load h.load h.flash fun hr => ?_)
      exact absurd (h.out.symm.trans hr.slot) (by simp)
    | enabled _ h h' =>
      refine h'.tracked (w := w) (ht.of_load ?_ (fun hf => ?_) fun hr => ?_)
      · rw [h.only.ctx]
        rfl
      · rwa [FlashPending, h.only.in_req] at hf
      · exact absurd (h.out.complete.symm.trans hr.complete) (by simp)
  | stall _ h => exact h.sameEp1.tracked ht

/-! ### Runs -/

/-- The image of `s` is started, at its entry. -/
structure Starts (s s' : Fb) (entry : UInt64) : Prop where
  pending : FlashPending s
  load : s'.ctx.load = s.ctx.load
  entry : entry = s.ctx.lastLoaded + s.entryOffset

theorem CallStops.starts {blame : Prop} {entry fdt : UInt64}
    (h : CallStops s blame (.jump entry fdt) s') : Starts s s' entry := by
  cases h with
  | jump _ hc hload hmem =>
    have hkept := hload
    simp only [FbMem.load, Prod.mk.injEq] at hkept
    have hbytes : ∀ a n, s'.load a n = s.load a n := by
      intro a n
      rw [Usbd.load, Usbd.load, hmem]
    refine ⟨hc, hload, ?_⟩
    rw [flashEntry_eq, hkept.1, entryOffset, entryOffset, loadWord, loadWord, hkept.1, hbytes,
      hbytes]

theorem StepStops.starts {st : UsbdStep} {entry fdt : UInt64}
    (h : StepStops s st (.jump entry fdt) s') : Starts s s' entry := by
  cases h with
  | init h => exact h.starts
  | sweep h => cases h with | in_ _ h => exact h.starts
  | complete h =>
    cases h with
    | out _ h => exact h.starts
    | in_ _ h => exact h.starts
  | setup h => cases h with | deconfigured _ h => exact h.starts

/-- An image that is started in a good state has come in full, and is entered inside. -/
theorem Starts.fullyLoaded {entry : UInt64} (h : Starts s s' entry) (ht : Tracked w s)
    (hin : EntryInside s) : FullyLoaded w entry s' := by
  obtain ⟨-, h0, hrem⟩ := ht.flash h.pending
  have hl := h.load
  simp only [FbMem.load, Prod.mk.injEq] at hl
  obtain ⟨h1, h2, h3, -⟩ := hl
  have hentry : entry.toNat = s.ctx.lastLoaded.toNat + s.entryOffset.toNat := by
    rw [h.entry, UInt64.toNat_add, Nat.mod_eq_of_lt hin.2]
  refine ⟨h3.trans hrem, ?_, ?_, ?_⟩
  · rw [h1, h2]
    exact ht.received h0 hrem
  · rw [h1, hentry]
    exact Nat.le_add_right ..
  · rw [h1, h2, hentry]
    exact Nat.add_lt_add_left hin.1 _

/-- **Only images that have come in full are started, and inside**, in a run in which no `flash:run`
finds a part of a download only, and the header of each image that is started leads into it. -/
theorem flash_fullyLoaded_of_run {m : Fb} (hm : NoReqs m) {size fdt : UInt64}
    {inps : List PollInput} (hgood : FbAlong flashGood size fdt inps m) :
    Post (fbRun size fdt inps) (fun _ _ => True) (fun e s' => ∀ entry fdt', e = .jump entry fdt' →
      FullyLoaded (fbRunReceived size fdt inps m) entry s') m := by
  refine post_bind.2 (post_iff.2 ⟨fun _ s hs => ?_, fun e s' hs entry fdt' he => ?_⟩)
  · have hl := (fbLaunch_post hm).of_ok hs
    have hruns := hgood.of_ok hs
    have hstart : Tracked [] s := ⟨fun h => absurd hl.lastLoaded h, fun h => absurd h hl.idle⟩
    have hrun := hruns.forM_ghost (g := fbReceived) (I := fun w s => FbOk s ∧ Tracked w s)
      (E := fun w e s' => ∀ entry fdt', e = .jump entry fdt' → FullyLoaded w entry s')
      (fun st w s hs hg => (step_post hs.1 st).mono
        (fun _ s' hd => ⟨hd.1, hd.2.tracked hs.1 hd.1 hg hs.2⟩) fun e s' he entry fdt' h => by
          subst h
          exact he.starts.fullyLoaded hs.2 (hg.2 he.starts.pending)) ⟨hl.ok, hstart⟩
    rw [usbdLoop_steps, fbRunReceived, hs]
    exact hrun.imp fun _ _ _ => trivial
  · subst he
    exact absurd ((fbLaunch_post hm).of_error hs) (by simp)

end

/-- Eight bytes are received and started. -/
theorem flash_fullyLoaded_bytes :
    let inps := [setConfig 1, command "download:8", sent, received (bytes "12345678"), sent, sent,
      command "flash:run\x00", sent]
    Post (fbRun 0x2000 0 inps) (fun _ _ => True) (fun e s' => ∀ entry fdt', e = .jump entry fdt' →
      FullyLoaded (fbRunReceived 0x2000 0 inps machine) entry s') machine := by
  intro inps
  refine @flash_fullyLoaded_of_run machine rfl 0x2000 0 inps ?_
  decide +kernel

/-- The host gives up a download before it has sent any of it, and sets the configuration again. -/
def givenUp : List PollInput :=
  [setConfig 1, done ep0InReq.ix 0 [], command "download:8", sent, setConfig 0,
    done ep0InReq.ix 0 [], setConfig 1, command "flash:run\x00", sent]

/-- The header of an image of 40 bytes says that pages have 256 MiB. -/
def largePage : List PollInput :=
  [setConfig 1, command "download:28", sent,
    received (bootMagic ++ List.replicate 28 0 ++ [0, 0, 0, 0x10]), sent, sent,
    command "flash:run\x00", sent]

/-- An image is started of which no byte has come, and one is entered far behind its end. -/
theorem flash_not_fullyLoaded : NoReqs machine ∧
    (FbAlong Reported 0x2000 0 givenUp machine ∧
      Post (fbRun 0x2000 0 givenUp) (fun _ _ => False) (fun e s' => e = .jump 0xbfe00000 0 ∧
        ¬FullyLoaded (fbRunReceived 0x2000 0 givenUp machine) 0xbfe00000 s') machine) ∧
    FbAlong Reported 0x2000 0 largePage machine ∧
      Post (fbRun 0x2000 0 largePage) (fun _ _ => False) (fun e s' => e = .jump 0xcfe00000 0 ∧
        ¬FullyLoaded (fbRunReceived 0x2000 0 largePage machine) 0xcfe00000 s') machine := by
  have hrem : Post (fbRun 0x2000 0 givenUp) (fun _ _ => False)
      (fun e s' => e = .jump 0xbfe00000 0 ∧ s'.ctx.loadRem = 8) machine := by
    decide +kernel
  have hend : Post (fbRun 0x2000 0 largePage) (fun _ _ => False)
      (fun e s' => e = .jump 0xcfe00000 0 ∧ s'.ctx.lastLoaded = 0xbfe00000 ∧ s'.ctx.loadSize = 40)
      machine := by
    decide +kernel
  refine ⟨rfl, ⟨by decide +kernel, ?_⟩, by decide +kernel, ?_⟩
  · refine hrem.mono (fun _ _ h => h) fun e s' h => ⟨h.1, fun hf => ?_⟩
    exact absurd (h.2.symm.trans hf.rem) (by decide)
  · refine hend.mono (fun _ _ h => h) fun e s' h => ⟨h.1, fun hf => ?_⟩
    have hlt := hf.lt
    rw [h.2.1, h.2.2] at hlt
    exact absurd hlt (by decide)

end ShieldLoader
