import AlignedRuns.Proofs.Reachability
set_option autoImplicit false

namespace AlignedRuns
open Traced

namespace Request
open Allocator

def performAll : List Request → Allocator → Traced (Except Refusal Allocator)
  | [], a => return .ok a
  | request :: requests, a => do
    let reply ← request.perform a
    match reply.answer with
    | .ok _ => performAll requests reply.after
    | .error refusal => return .error refusal

def reserving (entries : List (Nat × Nat)) : List Request :=
  entries.map fun e => .reserve e.1 e.2

def releasing (offsets : List Nat) : List Request := offsets.map .release

variable {a b : Allocator} {request : Request} {requests : List Request}

theorem performAll_cons_of_refused {refusal : Refusal}
    (h : request.perform a = pure (a.refuse refusal)) :
    performAll (request :: requests) a = pure (.error refusal) := by
  rw [performAll, h, pure_bind]
  rfl

theorem performAll_cons_of_accepted {events : Journal} {value : Option Nat}
    (h : request.perform a = (do emit events; pure (b.accept value))) :
    performAll (request :: requests) a = (do emit events; performAll requests b) := by
  rw [performAll, h, emit_pure_bind]
  rfl

theorem perform_reserve {offset size : Nat} (h : a.Canonical) (hv : a.Vacant offset size)
    (hsize : 0 < size) : ∃ events : Journal, (reserve offset size).perform a = (do
      emit events
      pure ((a.withAllocations (a.inUse.insert offset size)).accept none)) :=
  ⟨_, by rw [perform, h.reserve_of_vacant hv hsize]; rfl⟩

theorem perform_release {offset size : Nat} (h : a.Canonical)
    (hsize : a.inUse.get? offset = some size) :
    ∃ events : Journal, (release offset).perform a = (do
      emit events
      pure ((a.withAllocations (a.inUse.erase offset)).accept none)) :=
  ⟨_, by rw [perform, h.release_of_some hsize]; rfl⟩

end Request

namespace Allocator
open Request

variable {a : Allocator}

theorem vacant_of_spaced {m : IndexMap}
    (hm : Gaps.Spaced a.totalSize 0 m.toList) {e : Nat × Nat} {entries : List (Nat × Nat)}
    (hperm : (a.inUse.toList ++ e :: entries).Perm m.toList) : a.Vacant e.1 e.2 := by
  have he : e ∈ m.toList := hperm.mem_iff.1 (List.mem_append_right _ List.mem_cons_self)
  have hin : ∀ d, a.inUse.get? d.1 = some d.2 → d ∈ m.toList := by
    intro d hd
    exact hperm.mem_iff.1 (List.mem_append_left _ (IndexMap.mem_toList_iff.2 hd))
  refine ⟨?_, ?_, ?_⟩
  · cases hget : a.inUse.get? e.1 with
    | none => rfl
    | some size =>
      have hkeys := m.nodup_indices
      rw [← (hperm.map _).nodup_iff, List.map_append, List.nodup_append] at hkeys
      have hold : e.1 ∈ a.inUse.toList.map Prod.fst :=
        List.mem_map.2 ⟨(e.1, size), IndexMap.mem_toList_iff.2 hget, rfl⟩
      exact absurd rfl (hkeys.2.2 _ hold _ List.mem_cons_self)
  · apply Gaps.lastStop_le (Nat.zero_le _)
    intro d hd
    obtain ⟨hget, hlt⟩ := IndexMap.mem_below_iff.1 hd
    exact hm.apart (hin d hget) he hlt
  · apply Gaps.le_firstStart (hm.bounds he).2.2
    intro d hd
    obtain ⟨hget, hlt⟩ := IndexMap.mem_above_iff.1 hd
    exact hm.apart he (hin d hget) hlt

/-- Each reservation finds its range free, whatever the order: what is there and what is still to
come are apart all along. -/
theorem Canonical.performAll_reserving (h : a.Canonical) {m : IndexMap}
    (hm : Gaps.Spaced a.totalSize 0 m.toList) {entries : List (Nat × Nat)}
    (hperm : (a.inUse.toList ++ entries).Perm m.toList) :
    ∃ events : Journal, performAll (reserving entries) a =
      (do emit events; pure (.ok (a.withAllocations m))) := by
  induction entries generalizing a with
  | nil =>
    have hinUse : a.inUse = m := by
      refine IndexMap.eq_of_toList_eq (IndexMap.toList_eq_of_mem_iff m.ascending_toList ?_)
      intro i v
      rw [← IndexMap.mem_toList_iff]
      exact (List.append_nil a.inUse.toList ▸ hperm).mem_iff
    refine ⟨[], ?_⟩
    rw [← hinUse, h.withAllocations_self]
    rfl
  | cons e entries ih =>
    have hv := vacant_of_spaced hm hperm
    have he : e ∈ m.toList := hperm.mem_iff.1 (List.mem_append_right _ List.mem_cons_self)
    have hsize := (hm.bounds he).2.1
    obtain ⟨events, hrun⟩ := perform_reserve h hv hsize
    have hnext : ((a.inUse.insert e.1 e.2).toList ++ entries).Perm m.toList := by
      rw [IndexMap.toList_insert, List.append_assoc]
      rw [IndexMap.toList_of_get?_none hv.free, List.append_assoc] at hperm
      exact (List.Perm.append_left _ List.perm_middle.symm).trans hperm
    obtain ⟨events', hrest⟩ := ih (h.canonical (h.spaced_insert hv hsize)) hm hnext
    refine ⟨events ++ events', ?_⟩
    change performAll (.reserve e.1 e.2 :: reserving entries) a = _
    rw [performAll_cons_of_accepted hrun, hrest, emit_bind_emit, withAllocations_withAllocations]

/-- Allocations are released one by one in any order: each of them is there until its turn comes. -/
theorem Canonical.performAll_releasing_live (h : a.Canonical) {offsets : List Nat}
    (hnodup : offsets.Nodup) (hlive : ∀ offset ∈ offsets, (a.inUse.get? offset).isSome) :
    ∃ events : Journal, performAll (releasing offsets) a =
      (do emit events; pure (.ok (a.withAllocations (a.inUse.eraseAll offsets)))) := by
  induction offsets generalizing a with
  | nil =>
    refine ⟨[], ?_⟩
    change performAll [] a = pure (.ok (a.withAllocations a.inUse))
    rw [h.withAllocations_self]
    rfl
  | cons offset offsets ih =>
    obtain ⟨hnew, hnodup⟩ := List.nodup_cons.1 hnodup
    obtain ⟨hhere, hlater⟩ := List.forall_mem_cons.1 hlive
    obtain ⟨size, hsize⟩ := Option.isSome_iff_exists.1 hhere
    obtain ⟨events, hrun⟩ := perform_release h hsize
    obtain ⟨events', hrest⟩ := ih (h.canonical (h.spaced_erase offset)) hnodup
      (IndexMap.isSome_erase hnew hlater)
    refine ⟨events ++ events', ?_⟩
    change performAll (.release offset :: releasing offsets) a = _
    rw [performAll_cons_of_accepted hrun, hrest, emit_bind_emit, withAllocations_withAllocations]
    rfl

theorem Canonical.performAll_releasing (h : a.Canonical) {offsets : List Nat}
    (hperm : offsets.Perm (a.allocations.map Prod.fst)) :
    ∃ events : Journal, performAll (releasing offsets) a =
      (do emit events; pure (.ok (a.withAllocations .empty))) := by
  have hlive : ∀ offset, offset ∈ offsets ↔ (a.inUse.get? offset).isSome := by
    intro offset
    rw [hperm.mem_iff, Option.isSome_iff_exists]
    simp [allocations, IndexMap.mem_toList_iff]
  have hnone : a.inUse.eraseAll offsets = .empty := by
    apply IndexMap.ext_get?
    intro offset
    rw [IndexMap.get?_eraseAll, IndexMap.get?_empty]
    split
    · rfl
    · rename_i hdead
      simpa [hlive] using hdead
  rw [← hnone]
  exact h.performAll_releasing_live (hperm.nodup_iff.2 a.inUse.nodup_indices)
    fun offset => (hlive offset).1

theorem Canonical.spaced_blank (h : a.Canonical) {maxSize slotCount : Nat}
    (htotal : a.totalSize = maxSize * slotCount) :
    Gaps.Spaced (blank maxSize slotCount).totalSize 0 a.inUse.toList := by
  change Gaps.Spaced (maxSize * slotCount) 0 a.allocations
  rw [← htotal]
  exact h.spaced

theorem Canonical.eq_blank (h : a.Canonical) {maxSize slotCount : Nat}
    (hadmissible : Admissible maxSize slotCount) (hmax : a.maxSize = maxSize)
    (htotal : a.totalSize = maxSize * slotCount) :
    (blank maxSize slotCount).withAllocations a.inUse = a := by
  have hother := (blank_canonical hadmissible).canonical (h.spaced_blank htotal)
  exact hother.eq_of_inUse_eq h hmax.symm htotal.symm rfl

theorem Canonical.restore (h : a.Canonical) {maxSize slotCount : Nat}
    (hadmissible : Admissible maxSize slotCount) (hmax : a.maxSize = maxSize)
    (htotal : a.totalSize = maxSize * slotCount) {order : List (Nat × Nat)}
    (hperm : order.Perm a.allocations) :
    ∃ events : Journal, performAll (reserving order) (blank maxSize slotCount) =
      (do emit events; pure (.ok a)) := by
  have hblank := blank_canonical hadmissible
  have hempty : (blank maxSize slotCount).inUse.toList ++ order = order := by
    change IndexMap.empty.toList ++ order = order
    rw [IndexMap.toList_empty, List.nil_append]
  obtain ⟨events, hrun⟩ := hblank.performAll_reserving (h.spaced_blank htotal)
    (hempty.symm ▸ hperm)
  rw [h.eq_blank hadmissible hmax htotal] at hrun
  exact ⟨events, hrun⟩

end Allocator

namespace Reachable
open Allocator Request

variable {maxSize slotCount : Nat} {a : Allocator}

theorem performAll (h : Reachable maxSize slotCount a) {requests : List Request}
    (hwords : ∀ request ∈ requests, request.InWords) :
    ∃ (events : Journal) (result : Except Refusal Allocator),
      Request.performAll requests a = (do emit events; pure result) ∧
      ∀ b, result = .ok b → Reachable maxSize slotCount b := by
  induction requests generalizing a with
  | nil =>
    refine ⟨[], .ok a, rfl, ?_⟩
    rintro b hb
    cases hb
    exact h
  | cons request requests ih =>
    obtain ⟨hword, hrest⟩ := List.forall_mem_cons.1 hwords
    cases h.canonical.1.perform_answers hword with
    | refused refusal run => exact ⟨[], _, performAll_cons_of_refused run, nofun⟩
    | accepted value m changes entry spaced trace debug run =>
      have hnext : Reachable maxSize slotCount ((a.withAllocations m).accept value).after :=
        h.step hword (by rw [run, outcome_emit_pure])
      obtain ⟨events, result, hrun, hresult⟩ := ih hnext hrest
      refine ⟨(changes ++ [entry]) ++ events, result, ?_, hresult⟩
      change Request.performAll requests (a.withAllocations m) = _ at hrun
      rw [performAll_cons_of_accepted run, hrun, emit_bind_emit]

/-- Every canonical allocator with admissible parameters has a history: its allocations are
reserved one by one. -/
theorem of_canonical (hadmissible : Admissible maxSize slotCount) (h : a.Canonical)
    (hmax : a.maxSize = maxSize) (htotal : a.totalSize = maxSize * slotCount) :
    Reachable maxSize slotCount a := by
  obtain ⟨events, hrun⟩ := h.restore hadmissible hmax htotal (List.Perm.refl _)
  have hwords : ∀ request ∈ reserving a.allocations, request.InWords := by
    intro request hrequest
    obtain ⟨e, he, rfl⟩ := List.mem_map.1 hrequest
    have hbounds := h.spaced.bounds he
    have hlt := h.total_lt
    constructor <;> omega
  obtain ⟨events', result, hrun', hresult⟩ := (blank hadmissible).performAll hwords
  have houtcome := congrArg (fun x => (outcome x).result) (hrun.symm.trans hrun')
  simp only [outcome_emit_pure, Except.ok.injEq] at houtcome
  exact hresult a houtcome.symm

theorem withAllocations (hadmissible : Admissible maxSize slotCount) {m : IndexMap}
    (hm : Gaps.Spaced (maxSize * slotCount) 0 m.toList) :
    Reachable maxSize slotCount ((Allocator.blank maxSize slotCount).withAllocations m) :=
  of_canonical hadmissible ((blank_canonical hadmissible).canonical hm) rfl rfl

theorem eq_of_mem_iff {b : Allocator} (ha : Reachable maxSize slotCount a)
    (hb : Reachable maxSize slotCount b) (h : ∀ e, e ∈ b.allocations ↔ e ∈ a.allocations) :
    b = a := by
  obtain ⟨hca, hmaxa, htotala⟩ := ha.canonical
  obtain ⟨hcb, hmaxb, htotalb⟩ := hb.canonical
  apply hcb.eq_of_inUse_eq hca (hmaxb.trans hmaxa.symm) (htotalb.trans htotala.symm)
  refine IndexMap.eq_of_toList_eq (IndexMap.toList_eq_of_mem_iff a.inUse.ascending_toList ?_)
  intro i v
  rw [← IndexMap.mem_toList_iff]
  exact h (i, v)

theorem two_runs : ∃ a, Reachable 4 2 a ∧ a.allocations = [(3, 2), (6, 1)] := by
  have hlist : ((IndexMap.empty.insert 3 2).insert 6 1).toList = [(3, 2), (6, 1)] := by decide
  have hspaced : Gaps.Spaced (4 * 2) 0 ((IndexMap.empty.insert 3 2).insert 6 1).toList := by
    rw [hlist]
    simp [Gaps.Spaced]
  exact ⟨_, withAllocations ⟨⟨2, by decide, rfl⟩, by decide⟩ hspaced, hlist⟩

theorem beside_run :
    Reachable 4 4 ((Allocator.blank 4 4).withAllocations (IndexMap.empty.insert 1 2)) ∧
      (IndexMap.empty.insert 1 2).toList = [(1, 2)] := by
  have hlist : (IndexMap.empty.insert 1 2).toList = [(1, 2)] := by decide
  refine ⟨Reachable.withAllocations ⟨⟨2, by decide, rfl⟩, by decide⟩ ?_, hlist⟩
  rw [hlist]
  simp [Gaps.Spaced]

/-- The allocations decide everything else: reserved in any order in a new allocator they bring the
allocator back, and released in any order they leave the new allocator. -/
theorem determined_by_allocations (h : Reachable maxSize slotCount a) :
    ∃ new, (create maxSize slotCount).outcome.result = .ok (.ok new) ∧
      (∀ order : List (Nat × Nat), order.Perm a.allocations →
        (Request.performAll (reserving order) new).outcome.result = .ok (.ok a)) ∧
      (∀ b, Reachable maxSize slotCount b → (∀ e, e ∈ b.allocations ↔ e ∈ a.allocations) →
        b = a) ∧
      (a.allocations = [] → a = new) ∧
      ∀ order : List Nat, order.Perm (a.allocations.map Prod.fst) →
        (Request.performAll (releasing order) a).outcome.result = .ok (.ok new) := by
  have hadmissible := h.admissible
  obtain ⟨hcanonical, hmax, htotal⟩ := h.canonical
  refine ⟨Allocator.blank maxSize slotCount, outcome_create_iff.2 ⟨hadmissible, rfl⟩, ?_, ?_, ?_, ?_⟩
  · intro order hperm
    obtain ⟨events, hrun⟩ := hcanonical.restore hadmissible hmax htotal hperm
    rw [hrun, outcome_emit_pure]
  · intro b hb hiff
    exact h.eq_of_mem_iff hb hiff
  · intro hnone
    refine (blank hadmissible).eq_of_mem_iff h fun e => ?_
    rw [hnone]
    change e ∈ [] ↔ e ∈ IndexMap.empty.toList
    rw [IndexMap.toList_empty]
  · intro order hperm
    obtain ⟨events, hrun⟩ := hcanonical.performAll_releasing hperm
    have hempty : (Allocator.blank maxSize slotCount).withAllocations .empty =
        Allocator.blank maxSize slotCount := (blank_canonical hadmissible).withAllocations_self
    rw [hrun, outcome_emit_pure, ← hcanonical.eq_blank hadmissible hmax htotal,
      withAllocations_withAllocations, hempty]

theorem determined_by_allocations_two_runs :
    ∃ a new, Reachable 4 2 a ∧ a.allocations = [(3, 2), (6, 1)] ∧
      (create 4 2).outcome.result = .ok (.ok new) ∧
      (Request.performAll [.reserve 6 1, .reserve 3 2] new).outcome.result = .ok (.ok a) ∧
      (Request.performAll [.release 3, .release 6] a).outcome.result = .ok (.ok new) := by
  obtain ⟨a, h, hlist⟩ := two_runs
  obtain ⟨new, hnew, hreserve, -, -, hrelease⟩ := determined_by_allocations h
  rw [hlist] at hreserve hrelease
  refine ⟨a, new, h, hlist, hnew, ?_, ?_⟩
  · exact hreserve [(6, 1), (3, 2)] (List.Perm.swap _ _ _)
  · exact hrelease [3, 6] (List.Perm.refl _)

end Reachable

end AlignedRuns
