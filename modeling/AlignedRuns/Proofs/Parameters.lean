import AlignedRuns.Tampering
import AlignedRuns.Proofs.Reachability
import AlignedRuns.Proofs.Settlement
set_option autoImplicit false

namespace AlignedRuns

namespace Traced

variable {α β : Type} {x : Traced α} {f : α → Traced β} {P : α → Prop} {Q : β → Prop}

/-- Whenever the computation ends well, its value is as `P` says. Nothing is said of the journal, so
the steps that do not matter for the value can be passed over. -/
def Leaves (x : Traced α) (P : α → Prop) : Prop :=
  ∀ (before after : Journal) (value : α), x.run before = .ok value after → P value

theorem leaves_pure {value : α} (h : P value) : Leaves (pure value) P := by
  intro before after result hrun
  cases hrun
  exact h

theorem leaves_inconsistent (i : Inconsistency) (P : α → Prop) : (inconsistent i).Leaves P :=
  fun _ _ _ hrun => nomatch hrun

theorem Leaves.bind (hx : x.Leaves P) (hf : ∀ value, P value → (f value).Leaves Q) :
    (x >>= f).Leaves Q := by
  intro before after result hrun
  obtain ⟨value, middle, hfirst, hsecond⟩ := exists_of_run_bind_eq_ok hrun
  exact hf value (hx before middle value hfirst) middle after result hsecond

/-- Where every way to go on leaves what is wanted, nothing need be known of the first step. -/
theorem leaves_bind (hf : ∀ value, (f value).Leaves Q) : (x >>= f).Leaves Q :=
  Leaves.bind (P := fun _ => True) (fun _ _ _ _ => trivial) fun value _ => hf value

theorem Leaves.map {g : α → β} (h : x.Leaves fun value => Q (g value)) : (g <$> x).Leaves Q := by
  rw [map_eq_pure_bind]
  exact h.bind fun value hvalue => leaves_pure hvalue

theorem Leaves.imp (h : x.Leaves P) {R : α → Prop} (himp : ∀ value, P value → R value) :
    x.Leaves R :=
  fun before after value hrun => himp value (h before after value hrun)

theorem Leaves.of_outcome (h : x.Leaves P) {value : α} (hrun : x.outcome.result = .ok value) :
    P value := by
  unfold outcome at hrun
  split at hrun
  · rename_i result after hx
    cases hrun
    exact h [] after value hx
  · cases hrun

end Traced

namespace Allocator
open Traced

structure SameParameters (a b : Allocator) : Prop where
  maxSize_eq : b.maxSize = a.maxSize
  totalSize_eq : b.totalSize = a.totalSize
  count_eq : b.free.count = a.free.count

theorem SameParameters.trans {a b c : Allocator} (h : a.SameParameters b)
    (h' : b.SameParameters c) : a.SameParameters c :=
  ⟨h'.maxSize_eq.trans h.maxSize_eq, h'.totalSize_eq.trans h.totalSize_eq,
    h'.count_eq.trans h.count_eq⟩

theorem SameParameters.top_eq {a b : Allocator} (h : a.SameParameters b) :
    b.free.top = a.free.top :=
  FreeLists.top_eq_of_count_eq h.count_eq

theorem SameParameters.sized {a b : Allocator} (h : a.SameParameters b) (ha : a.Sized) :
    b.Sized where
  count_pos := h.count_eq ▸ ha.count_pos
  top_lt := h.top_eq ▸ ha.top_lt
  maxSize_eq := by rw [h.maxSize_eq, h.top_eq, ha.maxSize_eq]
  maxSize_dvd := by rw [h.maxSize_eq, h.totalSize_eq]; exact ha.maxSize_dvd
  total_lt := h.totalSize_eq ▸ ha.total_lt

/-- Whatever its parts hold, an allocator with the parameters of a new one is `Sized`. -/
theorem SameParameters.sized_of_create {maxSize slotCount : Nat} {new a : Allocator}
    (hnew : (create maxSize slotCount).outcome.result = .ok (.ok new))
    (h : new.SameParameters a) : a.Sized := by
  obtain ⟨hadmissible, rfl⟩ := outcome_create_iff.1 hnew
  exact h.sized (blank_canonical hadmissible).toSized

def sizes (a : Allocator) : Nat × Nat := (a.maxSize, a.totalSize)

variable (a : Allocator)

theorem markInUse_leaves (offset size : Nat) :
    (a.markInUse offset size).Leaves fun b => b.sizes = a.sizes := by
  unfold markInUse
  cases a.inUse.get? offset with
  | none => exact leaves_pure rfl
  | some old => exact leaves_inconsistent _ _

theorem placeIn_leaves (size start len : Nat) :
    (a.placeIn size start len).Leaves fun placed => placed.2.sizes = a.sizes := by
  unfold placeIn
  iterate 11 refine leaves_bind fun _ => ?_
  exact (markInUse_leaves _ _ _).bind fun b hb => leaves_pure hb

theorem freeRun_leaves (offset size : Nat) :
    (a.freeRun offset size).Leaves fun b => b.sizes = a.sizes := by
  unfold freeRun
  iterate 8 refine leaves_bind fun _ => ?_
  exact leaves_pure rfl

theorem carveGap_leaves (offset size left right : Nat) :
    (a.carveGap offset size left right).Leaves fun b => b.sizes = a.sizes := by
  unfold carveGap
  iterate 7 refine leaves_bind fun _ => ?_
  exact markInUse_leaves _ _ _

theorem allocate_leaves (size : Nat) :
    (a.allocate size).Leaves fun reply => reply.after.sizes = a.sizes := by
  unfold allocate
  cases a.sizeRefusal? size with
  | some refusal => exact leaves_pure rfl
  | none =>
    refine leaves_bind fun c => leaves_bind fun found => ?_
    obtain ⟨_ | ⟨start, len⟩, free⟩ := found
    · exact leaves_pure rfl
    · refine (placeIn_leaves _ _ _ _).bind fun placed hplaced => ?_
      exact leaves_bind fun _ => leaves_pure hplaced

theorem release_leaves (offset : Nat) :
    (a.release offset).Leaves fun reply => reply.after.sizes = a.sizes := by
  unfold release
  cases a.sizeAt offset with
  | error refusal => exact leaves_pure rfl
  | ok size =>
    refine (freeRun_leaves a offset size).bind fun b hb => ?_
    exact leaves_bind fun _ => leaves_pure hb

theorem reserve_leaves (offset size : Nat) :
    (a.reserve offset size).Leaves fun reply => reply.after.sizes = a.sizes := by
  unfold reserve
  split
  · exact leaves_pure rfl
  · split
    · exact leaves_pure rfl
    · refine leaves_bind fun gap => ?_
      obtain ⟨left, right⟩ := gap
      simp only
      split
      · exact leaves_pure rfl
      · refine (carveGap_leaves a offset size left right).bind fun b hb => ?_
        exact leaves_bind fun _ => leaves_pure hb

theorem fillTopPiece_leaves (top size offset : Nat) :
    (a.fillTopPiece top size offset).Leaves fun b => b.sizes = a.sizes := by
  unfold fillTopPiece
  refine leaves_bind fun found => ?_
  obtain ⟨_ | len, free⟩ := found
  · exact leaves_inconsistent _ _
  · iterate 3 refine leaves_bind fun _ => ?_
    exact markInUse_leaves _ _ _

theorem fillTopPieces_leaves (top size first stride remaining i : Nat) :
    (a.fillTopPieces top size first stride remaining i).Leaves fun b => b.sizes = a.sizes := by
  induction remaining generalizing a i with
  | zero => exact leaves_pure rfl
  | succ remaining ih =>
    unfold fillTopPieces
    refine leaves_bind fun place => ?_
    refine (fillTopPiece_leaves a top size place).bind fun b hb => ?_
    exact (ih b (i + 1)).imp fun c hc => hc.trans hb

theorem allocateMany_leaves (size count : Nat) :
    (a.allocateMany size count).Leaves fun reply => reply.after.sizes = a.sizes := by
  unfold allocateMany
  split
  · exact leaves_pure rfl
  split
  · exact allocate_leaves a size
  cases a.sizeRefusal? size with
  | some refusal => exact leaves_pure rfl
  | none =>
    refine leaves_bind fun c => leaves_bind fun top => ?_
    split
    · exact leaves_pure rfl
    refine leaves_bind fun room => leaves_bind fun span => ?_
    split
    · exact leaves_pure rfl
    refine leaves_bind fun exponent => leaves_bind fun align => leaves_bind fun found => ?_
    cases found with
    | none => exact leaves_pure rfl
    | some first =>
      refine leaves_bind fun stride => ?_
      refine (fillTopPieces_leaves a top size first stride count 0).bind fun b hb => ?_
      exact leaves_bind fun _ => leaves_pure hb

theorem freeRuns_leaves (first stride remaining i : Nat) :
    (a.freeRuns first stride remaining i).Leaves fun b => b.sizes = a.sizes := by
  induction remaining generalizing a i with
  | zero => exact leaves_pure rfl
  | succ remaining ih =>
    unfold freeRuns
    refine leaves_bind fun place => ?_
    cases a.inUse.get? place with
    | none => exact ih a (i + 1)
    | some size =>
      refine (freeRun_leaves a place size).bind fun b hb => ?_
      exact (ih b (i + 1)).imp fun c hc => hc.trans hb

theorem releaseMany_leaves (offset count : Nat) :
    (a.releaseMany offset count).Leaves fun reply => reply.after.sizes = a.sizes := by
  unfold releaseMany
  split
  · exact leaves_pure rfl
  split
  · exact release_leaves a offset
  cases a.sizeAt offset with
  | error refusal => exact leaves_pure rfl
  | ok size =>
    refine leaves_bind fun top => leaves_bind fun c => ?_
    split
    · exact leaves_pure rfl
    iterate 4 refine leaves_bind fun _ => ?_
    split
    · exact leaves_pure rfl
    refine leaves_bind fun found => ?_
    cases found with
    | some place => exact leaves_pure rfl
    | none =>
      refine (freeRuns_leaves a _ _ _ _).bind fun b hb => ?_
      exact leaves_bind fun _ => leaves_pure hb

end Allocator

namespace Request
open Traced Allocator

theorem perform_leaves (request : Request) (a : Allocator) :
    (request.perform a).Leaves fun reply => reply.after.sizes = a.sizes := by
  cases request with
  | allocate size => exact Leaves.map (allocate_leaves a size)
  | release offset => exact Leaves.map (release_leaves a offset)
  | reserve offset size => exact Leaves.map (reserve_leaves a offset size)
  | allocateMany size count => exact Leaves.map (allocateMany_leaves a size count)
  | releaseMany offset count => exact Leaves.map (releaseMany_leaves a offset count)

/-- No request that comes to an end changes the parameters. -/
theorem perform_sameParameters {request : Request} {a : Allocator} {reply : Reply (Option Nat)}
    (performed : (request.perform a).outcome.result = .ok reply) :
    a.SameParameters reply.after := by
  have hsizes := (perform_leaves request a).of_outcome performed
  have hsettled := (perform_settles request a).of_outcome performed
  generalize (request.perform a).outcome.journal = journal at hsettled
  cases hsettled with
  | refused refusal => exact ⟨rfl, rfl, rfl⟩
  | @accepted value b changes entry taken closed debug replayed =>
    obtain ⟨hmax, htotal⟩ := Prod.mk.inj hsizes
    have hcount := FreeLists.count_replay replayed
    exact ⟨hmax, htotal, hcount.trans (FreeLists.count_foldl_remove taken a.free)⟩

end Request

namespace Tampering
open Traced Allocator

theorem perform_ensures_sameParameters (tampering : Tampering) (a : Allocator) :
    (tampering.perform a).Ensures fun b _ => a.SameParameters b := by
  cases tampering with
  | putAllocation offset size => exact ensures_pure ⟨rfl, rfl, rfl⟩
  | dropAllocation offset => exact ensures_pure ⟨rfl, rfl, rfl⟩
  | putPiece sizeClass offset len =>
    refine Ensures.map ((FreeLists.silently_list _ _).bind fun pieces _ => ensures_pure ?_)
    exact ⟨rfl, rfl, FreeLists.count_setList _ _ _⟩
  | takePiece sizeClass offset =>
    refine Ensures.map ?_
    unfold Allocator.takePiece FreeLists.take
    rw [bind_assoc]
    refine (FreeLists.silently_list _ _).bind fun pieces _ => ensures_pure ?_
    exact ⟨rfl, rfl, FreeLists.count_setList _ _ _⟩
  | insertFreeRun offset len =>
    refine (FreeLists.insertRun_ensures _ _ _).bind fun s events hs => ensures_pure ?_
    exact ⟨rfl, rfl, FreeLists.count_replay hs.1⟩
  | removeFreeRun offset len =>
    refine (FreeLists.removeRun_ensures _ _ _).bind fun s events hs => ensures_pure ?_
    exact ⟨rfl, rfl, FreeLists.count_replay hs.1⟩

end Tampering

/-- The allocator comes from a new one by requests and by changes of any kind to what its parts
hold. -/
inductive Disturbed (maxSize slotCount : Nat) : Allocator → Prop where
  | fresh {a : Allocator} (h : (Allocator.create maxSize slotCount).outcome.result = .ok (.ok a)) :
    Disturbed maxSize slotCount a
  | step {a : Allocator} {request : Request} {reply : Reply (Option Nat)}
    (h : Disturbed maxSize slotCount a)
    (performed : (request.perform a).outcome.result = .ok reply) :
    Disturbed maxSize slotCount reply.after
  | changed {a b : Allocator} (h : Disturbed maxSize slotCount a) (same : a.SameParameters b) :
    Disturbed maxSize slotCount b

theorem Disturbed.tampered {maxSize slotCount : Nat} {a b : Allocator}
    (h : Disturbed maxSize slotCount a) {tampering : Tampering}
    (performed : (tampering.perform a).outcome.result = .ok b) : Disturbed maxSize slotCount b :=
  .changed h ((tampering.perform_ensures_sameParameters a).of_outcome performed)

/-- Whatever has happened to an allocator, it has the parameters of the new one. -/
theorem Disturbed.sameParameters {maxSize slotCount : Nat} {a : Allocator}
    (h : Disturbed maxSize slotCount a) : ∃ new : Allocator,
      (Allocator.create maxSize slotCount).outcome.result = .ok (.ok new) ∧
        new.SameParameters a := by
  induction h with
  | fresh h => exact ⟨_, h, rfl, rfl, rfl⟩
  | step _ performed ih =>
    obtain ⟨new, hnew, hsame⟩ := ih
    exact ⟨new, hnew, hsame.trans (Request.perform_sameParameters performed)⟩
  | changed _ same ih =>
    obtain ⟨new, hnew, hsame⟩ := ih
    exact ⟨new, hnew, hsame.trans same⟩

end AlignedRuns
