import GenericKernel.Drivers.VirtioBlk
import Mathlib.Data.UInt

/-!
# Answers belong to their requests

The status byte ties an answer to its request: `submit` sets it to `0xff` before
it publishes, and a completed transfer makes it zero. That works as long as no
*earlier* request can still write it. `Settled` says so: every published request
has had its status byte written.

* **invariant** — `Inv`, by the driver's phase: while a request is in flight,
  `InFlight` follows it through the device;
* **truth** — runs in which every submission is made in a settled world return
  only true answers (`run_truthful`);
* **the stale answer** — after a poll timeout the next call takes the late answer
  of the timed-out request for its own (`staleAnswer`).
-/

namespace GenericKernel.VirtioBlk

open GenericKernel.Lib

/-- Successful answers are true of the disk. -/
def Return.Holds (disk : UInt64 → Sector) : Return → Prop
  | .read s (.ok out) => out = disk s
  | .write s b (.ok _) => disk s = b
  | .read _ (.error _) => True
  | .write _ _ (.error _) => True

theorem Return.holds_failed (disk : UInt64 → Sector) (c : Call) (e : BlockError) :
    (c.failed e).Holds disk := by
  cases c with
  | read s => trivial
  | write s b => trivial

namespace World

variable {w w' : World} {c : Call}

/-- Every published request has had its status byte written. -/
def Settled (w : World) : Prop :=
  match w.device with
  | .idle => w.seen = w.mem.availIdx
  | .answered => w.seen + 1 = w.mem.availIdx
  | _ => False

/-- The last call returned the truth. -/
def Truthful (w : World) : Prop :=
  match w.phase with
  | .returned (some r) => r.Holds w.disk
  | _ => True

/-- A call that submits a request finds the world settled. -/
def Orderly (w : World) : Action → Prop
  | .call c => ¬ w.capacity ≤ c.sector → w.Settled
  | _ => True

/-! ## The invariant -/

/-- The request has had its effect. -/
def Done (w : World) : Call → Prop
  | .read s => w.mem.data = w.disk s
  | .write s b => w.disk s = b

/-- The request page and the first `k` descriptors describe `c`. -/
structure Laid (c : Call) (k : Nat) (w : World) : Prop where
  buffer : ∀ s b, c = .write s b → w.mem.data = b
  requestType : w.mem.requestType = c.requestType
  sector : w.mem.sector = c.sector
  descs : ∀ i < k, w.mem.desc i = requestDesc w.state.requestPhys c i

/-- Where the device is with `c`, the request published last. An earlier
request may still have its used index to advance. -/
def Stage (c : Call) (w : World) : Prop :=
  match w.device with
  | .idle => w.seen + 1 = w.mem.availIdx ∧ w.mem.status = 0xff ∨
      w.seen = w.mem.availIdx ∧ (w.mem.status = 0 → w.Done c)
  | .fetched r => w.seen + 1 = w.mem.availIdx ∧ w.mem.status = 0xff ∧
      r = ⟨c.requestType, c.sector, c.dataFlags⟩
  | .transferred s => w.seen + 1 = w.mem.availIdx ∧ w.mem.status = 0xff ∧ (s = 0 → w.Done c)
  | .answered => w.seen + 1 + 1 = w.mem.availIdx ∧ w.mem.status = 0xff ∨
      w.seen + 1 = w.mem.availIdx ∧ (w.mem.status = 0 → w.Done c)

/-- The request `c` is published. -/
structure InFlight (c : Call) (w : World) : Prop where
  laid : Laid c 3 w
  slot : w.mem.availRing ((w.mem.availIdx - 1) % w.state.queueSize) = 0
  stage : Stage c w

/-- The invariant of a phase. -/
def PhaseInv (w : World) : Phase → Prop
  | .returned none => True
  | .returned (some r) => (∃ c e, r = Call.failed c e) ∨ w.Settled ∧ r.Holds w.disk
  | .copyIn _ _ => w.Settled
  | .header c => w.Settled ∧ ∀ s b, c = .write s b → w.mem.data = b
  | .status c => w.Settled ∧ Laid c 0 w
  | .descriptor c index => w.Settled ∧ w.mem.status = 0xff ∧ index ≤ 2 ∧ Laid c index w
  | .ringSlot c => w.Settled ∧ w.mem.status = 0xff ∧ Laid c 3 w
  | .publish c => w.Settled ∧ w.mem.status = 0xff ∧ Laid c 3 w ∧
      w.mem.availRing (w.state.availIdx % w.state.queueSize) = 0
  | .poll c _ => InFlight c w
  | .check c => InFlight c w
  | .copyOut s => w.Settled ∧ w.mem.data = w.disk s

/-- **The invariant**, over the whole world. -/
structure Inv (w : World) : Prop where
  index : w.mem.availIdx = w.state.availIdx
  phase : PhaseInv w w.phase

/-- The world after the used index advanced. -/
def completed (w : World) : World :=
  { w with
    mem.usedIdx := w.mem.usedIdx + 1
    seen := w.seen + 1
    device := .idle }

theorem Laid.completed {k : Nat} (h : Laid c k w) : Laid c k w.completed :=
  ⟨h.buffer, h.requestType, h.sector, h.descs⟩

/-! ## What the device can do -/

/-- One action of the device, with its conditions. -/
inductive DeviceStep (w : World) : World → Prop
  | fetch {r : Fetched} : w.device = .idle → w.seen ≠ w.mem.availIdx →
      w.chain (w.mem.availRing (w.seen % w.state.queueSize)) = some r →
      DeviceStep w { w with device := .fetched r }
  | read {r : Fetched} : w.device = .fetched r → r.requestType = REQ_READ →
      DeviceStep w { w with mem.data := w.disk r.sector, device := .transferred 0 }
  | write {r : Fetched} : w.device = .fetched r → r.requestType = REQ_WRITE →
      DeviceStep w { w with
        disk := fun s => if s = r.sector then w.mem.data else w.disk s
        device := .transferred 0 }
  | failIn {r : Fetched} {status : UInt8} {junk : Sector} : w.device = .fetched r →
      status ≠ 0 → r.dataFlags &&& DESC_WRITE ≠ 0 →
      DeviceStep w { w with mem.data := junk, device := .transferred status }
  | failOut {r : Fetched} {status : UInt8} {disk : UInt64 → Sector} : w.device = .fetched r →
      status ≠ 0 → DeviceStep w { w with disk := disk, device := .transferred status }
  | answer {status : UInt8} : w.device = .transferred status →
      DeviceStep w { w with mem.status := status, device := .answered }
  | complete : w.device = .answered → DeviceStep w w.completed

theorem DeviceStep.of_fetch (h : w.fetch = some w') : DeviceStep w w' := by
  unfold World.fetch at h
  cases hd : w.device with
  | idle =>
      rw [hd] at h
      dsimp only at h
      by_cases hseen : w.seen = w.mem.availIdx
      · rw [if_pos hseen] at h
        cases h
      · rw [if_neg hseen, Option.map_eq_some_iff] at h
        obtain ⟨r, hr, rfl⟩ := h
        exact .fetch hd hseen hr
  | _ =>
      rw [hd] at h
      cases h

theorem DeviceStep.of_transfer (h : w.transfer = some w') : DeviceStep w w' := by
  unfold World.transfer at h
  cases hd : w.device with
  | fetched r =>
      rw [hd] at h
      dsimp only at h
      by_cases hcapacity : w.capacity ≤ r.sector
      · rw [if_pos hcapacity] at h
        cases h
      rw [if_neg hcapacity] at h
      by_cases hread : r.requestType = REQ_READ ∧ r.dataFlags &&& DESC_WRITE ≠ 0
      · rw [if_pos hread] at h
        obtain rfl := Option.some.inj h
        exact .read hd hread.1
      rw [if_neg hread] at h
      by_cases hwrite : r.requestType = REQ_WRITE ∧ r.dataFlags &&& DESC_WRITE = 0
      · rw [if_pos hwrite] at h
        obtain rfl := Option.some.inj h
        exact .write hd hwrite.1
      · rw [if_neg hwrite] at h
        cases h
  | _ =>
      rw [hd] at h
      cases h

theorem DeviceStep.of_fail {status : UInt8} {junk : Sector} (h : w.fail status junk = some w') :
    DeviceStep w w' := by
  unfold World.fail at h
  cases hd : w.device with
  | fetched r =>
      rw [hd] at h
      dsimp only at h
      by_cases hstatus : status = 0
      · rw [if_pos hstatus] at h
        cases h
      rw [if_neg hstatus] at h
      by_cases hflags : r.dataFlags &&& DESC_WRITE ≠ 0
      · rw [if_pos hflags] at h
        obtain rfl := Option.some.inj h
        exact .failIn hd hstatus hflags
      rw [if_neg hflags] at h
      by_cases hwrite : r.requestType = REQ_WRITE
      · rw [if_pos hwrite] at h
        obtain rfl := Option.some.inj h
        exact .failOut hd hstatus
      · rw [if_neg hwrite] at h
        obtain rfl := Option.some.inj h
        exact .failOut hd hstatus
  | _ =>
      rw [hd] at h
      cases h

theorem DeviceStep.of_answer (h : w.answer = some w') : DeviceStep w w' := by
  unfold World.answer at h
  cases hd : w.device with
  | transferred status =>
      rw [hd] at h
      obtain rfl := Option.some.inj h
      exact .answer hd
  | _ =>
      rw [hd] at h
      cases h

theorem DeviceStep.of_complete (h : w.complete = some w') : DeviceStep w w' := by
  unfold World.complete at h
  cases hd : w.device with
  | answered =>
      rw [hd] at h
      obtain rfl := Option.some.inj h
      exact .complete hd
  | _ =>
      rw [hd] at h
      cases h

/-- A settled device can only complete what it has answered. -/
theorem Settled.device (h : w.Settled) (hs : DeviceStep w w') :
    w' = w.completed ∧ w'.Settled := by
  unfold Settled at h
  cases hs with
  | fetch hd hseen _ =>
      rw [hd] at h
      exact absurd h hseen
  | complete hd =>
      rw [hd] at h
      exact ⟨rfl, h⟩
  | read hd _ => rw [hd] at h; exact h.elim
  | write hd _ => rw [hd] at h; exact h.elim
  | failIn hd _ _ => rw [hd] at h; exact h.elim
  | failOut hd _ => rw [hd] at h; exact h.elim
  | answer hd => rw [hd] at h; exact h.elim

/-- The device finds the chain the driver laid out. -/
theorem Laid.chain (h : Laid c 3 w) :
    w.chain 0 = some ⟨c.requestType, c.sector, c.dataFlags⟩ := by
  have h₀ : w.mem.desc 0 = ⟨w.state.requestPhys, 16, DESC_NEXT, 1⟩ := h.descs 0 (by decide)
  have h₁ : w.mem.desc 1 =
      ⟨w.state.requestPhys + REQUEST_DATA_OFFSET, SECTOR_SIZE, c.dataFlags, 2⟩ :=
    h.descs 1 (by decide)
  have h₂ : w.mem.desc 2 = ⟨w.state.requestPhys + REQUEST_STATUS_OFFSET, 1, DESC_WRITE, 0⟩ :=
    h.descs 2 (by decide)
  unfold World.chain
  simp [h₀, h₁, h₂, h.requestType, h.sector]

theorem dataFlags_write (s : UInt64) (b : Sector) :
    (Call.write s b).dataFlags &&& DESC_WRITE = 0 := by
  show (DESC_NEXT ||| 0) &&& DESC_WRITE = 0
  decide

theorem requestTypes_ne : REQ_WRITE ≠ REQ_READ := by decide

/-- **A request in flight stays in flight**, whatever the device does. -/
theorem InFlight.device (h : InFlight c w) (hs : DeviceStep w w') : InFlight c w' := by
  have hstage := h.stage
  unfold Stage at hstage
  cases hs with
  | @fetch r hd hseen hr =>
      rw [hd] at hstage
      obtain ⟨hnext, hstatus⟩ := hstage.resolve_right fun hend => hseen hend.1
      have hslot : w.mem.availRing (w.seen % w.state.queueSize) = 0 := by
        have := h.slot
        rw [← hnext, UInt16.add_sub_cancel] at this
        exact this
      rw [hslot, h.laid.chain] at hr
      exact ⟨⟨h.laid.buffer, h.laid.requestType, h.laid.sector, h.laid.descs⟩, h.slot,
        hnext, hstatus, (Option.some.inj hr).symm⟩
  | @read r hd hread =>
      rw [hd] at hstage
      obtain ⟨hnext, hstatus, rfl⟩ := hstage
      cases c with
      | read s =>
          exact ⟨⟨fun _ _ heq => (nomatch heq), h.laid.requestType, h.laid.sector, h.laid.descs⟩,
            h.slot, hnext, hstatus, fun _ => rfl⟩
      | write s b => exact absurd hread requestTypes_ne
  | @write r hd hwrite =>
      rw [hd] at hstage
      obtain ⟨hnext, hstatus, rfl⟩ := hstage
      cases c with
      | read s => exact absurd hwrite requestTypes_ne.symm
      | write s b =>
          refine ⟨⟨h.laid.buffer, h.laid.requestType, h.laid.sector, h.laid.descs⟩, h.slot,
            hnext, hstatus, fun _ => ?_⟩
          show (if s = s then w.mem.data else w.disk s) = b
          rw [if_pos rfl]
          exact h.laid.buffer s b rfl
  | @failIn r status junk hd hstatus' hflags =>
      rw [hd] at hstage
      obtain ⟨hnext, hstatus, rfl⟩ := hstage
      refine ⟨⟨?_, h.laid.requestType, h.laid.sector, h.laid.descs⟩, h.slot, hnext, hstatus,
        fun hzero => absurd hzero hstatus'⟩
      intro s b heq
      subst heq
      exact absurd (dataFlags_write s b) hflags
  | @failOut r status disk hd hstatus' =>
      rw [hd] at hstage
      obtain ⟨hnext, hstatus, rfl⟩ := hstage
      exact ⟨⟨h.laid.buffer, h.laid.requestType, h.laid.sector, h.laid.descs⟩, h.slot, hnext,
        hstatus, fun hzero => absurd hzero hstatus'⟩
  | @answer status hd =>
      rw [hd] at hstage
      obtain ⟨hnext, _, hdone⟩ := hstage
      exact ⟨⟨h.laid.buffer, h.laid.requestType, h.laid.sector, h.laid.descs⟩, h.slot,
        .inr ⟨hnext, hdone⟩⟩
  | complete hd =>
      rw [hd] at hstage
      refine ⟨⟨h.laid.buffer, h.laid.requestType, h.laid.sector, h.laid.descs⟩, h.slot, ?_⟩
      rcases hstage with ⟨hnext, hstatus⟩ | ⟨hnext, hdone⟩
      · exact .inl ⟨hnext, hstatus⟩
      · exact .inr ⟨hnext, hdone⟩

/-- A zero status byte is the answer to the request in flight. -/
theorem InFlight.answered (h : InFlight c w) (hzero : w.mem.status = 0) :
    w.Settled ∧ w.Done c := by
  have hstage := h.stage
  have hbusy : w.mem.status ≠ 0xff := by
    rw [hzero]
    decide
  unfold Stage at hstage
  unfold Settled
  cases hd : w.device with
  | idle =>
      rw [hd] at hstage
      rcases hstage with ⟨_, hstatus⟩ | ⟨hnext, hdone⟩
      · exact absurd hstatus hbusy
      · exact ⟨hnext, hdone hzero⟩
  | answered =>
      rw [hd] at hstage
      rcases hstage with ⟨_, hstatus⟩ | ⟨hnext, hdone⟩
      · exact absurd hstatus hbusy
      · exact ⟨hnext, hdone hzero⟩
  | fetched r =>
      rw [hd] at hstage
      exact absurd hstage.2.1 hbusy
  | transferred s =>
      rw [hd] at hstage
      exact absurd hstage.2.1 hbusy

/-! ## Steps and runs -/

/-- **Step**, on the device's side. -/
theorem Inv.device (h : Inv w) (hs : DeviceStep w w') : Inv w' := by
  have hsame : w'.phase = w.phase ∧ w'.mem.availIdx = w.mem.availIdx ∧ w'.state = w.state := by
    cases hs <;> exact ⟨rfl, rfl, rfl⟩
  refine ⟨by rw [hsame.2.1, hsame.2.2]; exact h.index, ?_⟩
  rw [hsame.1]
  have hphase := h.phase
  cases hp : w.phase with
  | returned last =>
      rw [hp] at hphase
      cases last with
      | none => trivial
      | some r =>
          rcases hphase with hfailed | ⟨hsettled, hholds⟩
          · exact .inl hfailed
          · obtain ⟨rfl, hsettled'⟩ := hsettled.device hs
            exact .inr ⟨hsettled', hholds⟩
  | copyIn s b =>
      rw [hp] at hphase
      exact (Settled.device hphase hs).2
  | header c =>
      rw [hp] at hphase
      obtain ⟨rfl, hsettled⟩ := hphase.1.device hs
      exact ⟨hsettled, hphase.2⟩
  | status c =>
      rw [hp] at hphase
      obtain ⟨rfl, hsettled⟩ := hphase.1.device hs
      exact ⟨hsettled, hphase.2.completed⟩
  | descriptor c index =>
      rw [hp] at hphase
      obtain ⟨rfl, hsettled⟩ := hphase.1.device hs
      exact ⟨hsettled, hphase.2.1, hphase.2.2.1, hphase.2.2.2.completed⟩
  | ringSlot c =>
      rw [hp] at hphase
      obtain ⟨rfl, hsettled⟩ := hphase.1.device hs
      exact ⟨hsettled, hphase.2.1, hphase.2.2.completed⟩
  | publish c =>
      rw [hp] at hphase
      obtain ⟨rfl, hsettled⟩ := hphase.1.device hs
      exact ⟨hsettled, hphase.2.1, hphase.2.2.1.completed, hphase.2.2.2⟩
  | poll c left =>
      rw [hp] at hphase
      exact InFlight.device hphase hs
  | check c =>
      rw [hp] at hphase
      exact InFlight.device hphase hs
  | copyOut s =>
      rw [hp] at hphase
      obtain ⟨rfl, hsettled⟩ := hphase.1.device hs
      exact ⟨hsettled, hphase.2⟩

/-- Publishing puts the request in flight. -/
theorem publish_inFlight (hindex : w.mem.availIdx = w.state.availIdx) (hsettled : w.Settled)
    (hstatus : w.mem.status = 0xff) (hlaid : Laid c 3 w)
    (hslot : w.mem.availRing (w.state.availIdx % w.state.queueSize) = 0) (phase : Phase) :
    InFlight c { w with
      state.availIdx := w.state.availIdx + 1
      mem.availIdx := w.state.availIdx + 1
      phase := phase } := by
  refine ⟨⟨hlaid.buffer, hlaid.requestType, hlaid.sector, hlaid.descs⟩, ?_, ?_⟩
  · show w.mem.availRing ((w.state.availIdx + 1 - 1) % w.state.queueSize) = 0
    rw [UInt16.add_sub_cancel]
    exact hslot
  · unfold Settled at hsettled
    unfold Stage
    rw [hindex] at hsettled
    cases hd : w.device with
    | idle =>
        rw [hd] at hsettled
        exact .inl ⟨congrArg (· + 1) hsettled, hstatus⟩
    | answered =>
        rw [hd] at hsettled
        exact .inl ⟨congrArg (· + 1) hsettled, hstatus⟩
    | fetched r =>
        rw [hd] at hsettled
        exact hsettled.elim
    | transferred s =>
        rw [hd] at hsettled
        exact hsettled.elim

/-- **Step**, on the driver's side. -/
theorem Inv.driver (h : Inv w) (hs : w.driverStep = some w') : Inv w' := by
  have hphase := h.phase
  unfold driverStep at hs
  cases hp : w.phase with
  | returned last =>
      rw [hp] at hs
      cases hs
  | copyIn s b =>
      rw [hp] at hs hphase
      obtain rfl := Option.some.inj hs
      refine ⟨h.index, hphase, ?_⟩
      intro s' b' heq
      exact (Call.write.inj heq).2
  | header c =>
      rw [hp] at hs hphase
      obtain rfl := Option.some.inj hs
      exact ⟨h.index, hphase.1, hphase.2, rfl, rfl, fun i hi => absurd hi (Nat.not_lt_zero i)⟩
  | status c =>
      rw [hp] at hs hphase
      obtain rfl := Option.some.inj hs
      obtain ⟨hsettled, hlaid⟩ := hphase
      exact ⟨h.index, hsettled, rfl, Nat.zero_le 2, hlaid.buffer, hlaid.requestType,
        hlaid.sector, hlaid.descs⟩
  | descriptor c index =>
      rw [hp] at hs hphase
      obtain rfl := Option.some.inj hs
      obtain ⟨hsettled, hstatus, hle, hlaid⟩ := hphase
      have hnext : Laid c (index + 1) { w with
          mem := writeDesc w.mem index (requestDesc w.state.requestPhys c index) } := by
        refine ⟨hlaid.buffer, hlaid.requestType, hlaid.sector, fun i hi => ?_⟩
        show (if i = index then _ else _) = _
        by_cases heq : i = index
        · rw [if_pos heq, heq]
        · rw [if_neg heq]
          exact hlaid.descs i (by omega)
      by_cases hlast : index = 2
      · subst hlast
        exact ⟨h.index, hsettled, hstatus, hnext.buffer, hnext.requestType, hnext.sector,
          hnext.descs⟩
      · refine ⟨h.index, ?_⟩
        dsimp only
        rw [if_neg hlast]
        exact ⟨hsettled, hstatus, by omega, hnext.buffer, hnext.requestType, hnext.sector,
          hnext.descs⟩
  | ringSlot c =>
      rw [hp] at hs hphase
      obtain rfl := Option.some.inj hs
      obtain ⟨hsettled, hstatus, hlaid⟩ := hphase
      exact ⟨h.index, hsettled, hstatus,
        ⟨hlaid.buffer, hlaid.requestType, hlaid.sector, hlaid.descs⟩, if_pos rfl⟩
  | publish c =>
      rw [hp] at hs hphase
      obtain rfl := Option.some.inj hs
      obtain ⟨hsettled, hstatus, hlaid, hslot⟩ := hphase
      exact ⟨rfl, publish_inFlight h.index hsettled hstatus hlaid hslot _⟩
  | poll c left =>
      rw [hp] at hs hphase
      cases left with
      | zero =>
          obtain rfl := Option.some.inj hs
          exact ⟨h.index, .inl ⟨c, .io, rfl⟩⟩
      | succ left =>
          dsimp only at hs
          by_cases hused : w.mem.usedIdx ≠ w.state.lastUsed
          · rw [if_pos hused] at hs
            obtain rfl := Option.some.inj hs
            exact ⟨h.index, ⟨hphase.laid.buffer, hphase.laid.requestType, hphase.laid.sector,
              hphase.laid.descs⟩, hphase.slot, hphase.stage⟩
          · rw [if_neg hused] at hs
            obtain rfl := Option.some.inj hs
            exact ⟨h.index, ⟨hphase.laid.buffer, hphase.laid.requestType, hphase.laid.sector,
              hphase.laid.descs⟩, hphase.slot, hphase.stage⟩
  | check c =>
      rw [hp] at hs hphase
      dsimp only at hs
      by_cases hzero : w.mem.status = 0
      · rw [if_pos hzero] at hs
        obtain ⟨hsettled, hdone⟩ := InFlight.answered hphase hzero
        cases c with
        | read s =>
            obtain rfl := Option.some.inj hs
            exact ⟨h.index, hsettled, hdone⟩
        | write s b =>
            obtain rfl := Option.some.inj hs
            exact ⟨h.index, .inr ⟨hsettled, hdone⟩⟩
      · rw [if_neg hzero] at hs
        obtain rfl := Option.some.inj hs
        exact ⟨h.index, .inl ⟨c, .io, rfl⟩⟩
  | copyOut s =>
      rw [hp] at hs hphase
      obtain rfl := Option.some.inj hs
      exact ⟨h.index, .inr ⟨hphase.1, hphase.2⟩⟩

/-- Entering a call in a settled world. -/
theorem Inv.enter (h : Inv w) (c : Call) (horderly : w.Orderly (.call c)) :
    Inv (w.enter c) := by
  unfold World.enter
  by_cases hcapacity : w.capacity ≤ c.sector
  · rw [if_pos hcapacity]
    exact ⟨h.index, .inl ⟨c, .outOfRange, rfl⟩⟩
  · rw [if_neg hcapacity]
    have hsettled : w.Settled := horderly hcapacity
    cases c with
    | read s => exact ⟨h.index, hsettled, fun _ _ heq => nomatch heq⟩
    | write s b => exact ⟨h.index, hsettled⟩

/-- **Step**: every orderly action keeps the invariant. -/
theorem Inv.step (w : World) (a : Action) (w' : World) (h : Inv w) (horderly : w.Orderly a)
    (hs : w.step a = some w') : Inv w' := by
  cases a with
  | call c =>
      unfold World.step at hs
      cases hp : w.phase with
      | returned last =>
          rw [hp] at hs
          obtain rfl := Option.some.inj hs
          exact h.enter c horderly
      | _ =>
          rw [hp] at hs
          cases hs
  | driver => exact h.driver hs
  | fetch => exact h.device (.of_fetch hs)
  | transfer => exact h.device (.of_transfer hs)
  | fail status junk => exact h.device (.of_fail hs)
  | answer => exact h.device (.of_answer hs)
  | complete => exact h.device (.of_complete hs)

theorem Inv.truthful (h : Inv w) : w.Truthful := by
  have hphase := h.phase
  unfold Truthful
  cases hp : w.phase with
  | returned last =>
      rw [hp] at hphase
      cases last with
      | none => trivial
      | some r =>
          rcases hphase with ⟨c, e, rfl⟩ | ⟨_, hholds⟩
          · exact Return.holds_failed _ c e
          · exact hholds
  | _ => trivial

/-- A probed device is at rest. -/
theorem inv_probe {config : Config} (h : probe config = .ok w) : Inv w := by
  unfold probe at h
  split at h
  · cases h
  split at h
  · cases h
  split at h
  · cases h
  · cases h
  split at h
  · cases h
  split at h
  · cases h
  obtain rfl := Except.ok.inj h
  exact ⟨rfl, trivial⟩

/-- **Answers belong to their requests.** Whatever the interleaving of calls,
poll timeouts and device actions: as long as every submission finds all earlier
requests answered, a read that returns `Ok` returned the contents of its sector
and a write that returned `Ok` is on the disk. -/
theorem run_truthful {config : Config} {w₀ : World} (hprobe : probe config = .ok w₀)
    {actions : List Action} (horderly : Along step Orderly w₀ actions)
    (hrun : run step w₀ actions = some w) : w.Truthful :=
  (run_invariant Inv.step (inv_probe hprobe) horderly hrun).truthful

/-! ## Two runs -/

/-- Two sectors: zeros, then ones. -/
def twoSectors : Config where
  queueSize := 4
  queuePfn := 0
  queueDma := some 0x1000
  requestDma := some 0x3000
  capacity := 2
  disk s := Vector.replicate SECTOR_SIZE (if s = 1 then 1 else 0)

/-- The world of `twoSectors` after `probe`. -/
def twoSectorsWorld : World where
  capacity := 2
  state := ⟨4, 0x3000, 0, 0⟩
  mem := .zero
  phase := .returned none
  disk s := Vector.replicate SECTOR_SIZE (if s = 1 then 1 else 0)
  seen := 0
  device := .idle

theorem probe_twoSectors : probe twoSectors = .ok twoSectorsWorld := rfl

/-- Everything of `submit` before the polls, for a read. -/
def submitRead (sector : UInt64) : List Action :=
  .call (.read sector) :: List.replicate 7 .driver

/-- Without a call every action is orderly. -/
theorem along_of_no_call (actions : List Action) (h : ∀ a ∈ actions, ∀ c, a ≠ .call c) :
    ∀ w, Along step Orderly w actions := by
  induction actions with
  | nil =>
      intro w
      trivial
  | cons a rest ih =>
      intro w
      refine ⟨?_, fun w' _ => ih (fun b hb => h b (List.mem_cons_of_mem _ hb)) w'⟩
      cases a with
      | call c => exact absurd rfl (h _ List.mem_cons_self c)
      | _ => trivial

/-- A read of sector 1, answered in time. -/
theorem run_truthful_inTime : ∃ w, run step twoSectorsWorld (submitRead 1 ++
      [.fetch, .transfer, .answer, .complete, .driver, .driver, .driver]) = some w ∧
    w.phase = .returned (some (.read 1 (.ok (Vector.replicate SECTOR_SIZE 1)))) ∧
    w.Truthful := by
  have horderly : Along step Orderly twoSectorsWorld (submitRead 1 ++
      [.fetch, .transfer, .answer, .complete, .driver, .driver, .driver]) := by
    refine ⟨fun _ => rfl, fun w _ => along_of_no_call _ ?_ w⟩
    intro a ha c heq
    subst heq
    simp at ha
  exact ⟨_, rfl, rfl, run_truthful probe_twoSectors horderly rfl⟩

/-- Polling an unchanged used index ends in a timeout. -/
theorem run_polls {n : Nat} : ∀ {w : World}, w.phase = .poll c n →
    w.mem.usedIdx = w.state.lastUsed → run step w (List.replicate (n + 1) .driver) =
      some { w with phase := .returned (some (c.failed .io)) } := by
  induction n with
  | zero =>
      intro w hp _
      refine (run_cons ?_ _).trans rfl
      simp only [step, driverStep, hp]
  | succ n ih =>
      intro w hp hused
      rw [List.replicate_succ]
      have hstep : w.step .driver = some { w with phase := .poll c n } := by
        simp only [step, driverStep, hp, hused, ne_eq, not_true_eq_false, if_false]
      exact (run_cons hstep _).trans (ih rfl hused)

/-- A read of sector 0 times out after its transfer; its answer arrives during
the following read of sector 1, which then returns the zeros of sector 0. -/
theorem staleAnswer : probe twoSectors = .ok twoSectorsWorld ∧
    ∃ w, run step twoSectorsWorld ((submitRead 0 ++ [.fetch, .transfer]) ++
        (List.replicate (POLL_BUDGET + 1) .driver ++
          (submitRead 1 ++ [.answer, .complete, .driver, .driver, .driver]))) = some w ∧
      w.phase = .returned (some (.read 1 (.ok (Vector.replicate SECTOR_SIZE 0)))) ∧
      w.disk 1 = Vector.replicate SECTOR_SIZE 1 ∧ ¬ w.Truthful := by
  have hne : Vector.replicate SECTOR_SIZE (0 : UInt8) ≠ Vector.replicate SECTOR_SIZE 1 := by
    intro heq
    exact absurd (Vector.replicate_inj.mp heq) (by decide)
  refine ⟨rfl, ?_⟩
  rw [run_append, show run step twoSectorsWorld (submitRead 0 ++ [.fetch, .transfer]) = some _
    from rfl, Option.bind_some, run_append, run_polls rfl rfl, Option.bind_some]
  exact ⟨_, rfl, rfl, rfl, hne⟩

end World

end GenericKernel.VirtioBlk
