import AlignedRuns.Proofs.Lines
import AlignedRuns.Proofs.Settlement
import AlignedRuns.Proofs.RequestLaws
import AlignedRuns.Proofs.Tilings
set_option autoImplicit false

namespace AlignedRuns
open Traced

namespace Journal

/-- What is written down, read as lines: changes to free lists, which in this order lead from
`start` to `after`, and then the one line that is not about a free list. -/
def Accounts (journal : Journal) (start after : FreeLists) (closing : String) : Prop :=
  ∃ changes : List String, journal.lines .trace = changes ++ [closing] ∧
    (∀ line ∈ changes, Severity.ofLine? line = some .trace) ∧
    Severity.ofLine? closing = some .debug ∧ start.replayLines changes = some after

theorem accounts_of_replay {start after : FreeLists} {changes : Journal} {entry : Event}
    (h : start.replay changes = some after) (debug : entry.severity = .debug) :
    Accounts (changes ++ [entry]) start after ("DEBUG " ++ entry.message) := by
  refine ⟨changes.map Event.line, ?_, fun line hline => ?_, ?_, FreeLists.replayLines_of_replay h⟩
  · rw [lines_trace, List.map_append, ← Event.line_of_debug debug]
    rfl
  · obtain ⟨e, he, rfl⟩ := List.mem_map.1 hline
    rw [Event.severity_line, FreeLists.trace_of_replay h e he]
  · rw [← Event.line_of_debug debug, Event.severity_line, debug]

end Journal

namespace Allocator

section Creation
variable {maxSize slotCount : Nat}

theorem fillSlots_ensures (maxSize : Nat) (slots : List Nat) (s : FreeLists) :
    (slots.foldlM (fun (s : FreeLists) slot => do
        let start ← Word.mul indexBits slot maxSize
        s.insertRun start maxSize) s).Ensures fun t events => s.replay events = some t := by
  induction slots generalizing s with
  | nil => exact ensures_pure (FreeLists.replay_nil s)
  | cons slot slots ih =>
    rw [List.foldlM_cons, bind_assoc]
    refine (Word.silently_mul _ _ _).bind fun start _ => ?_
    refine (FreeLists.insertRun_ensures s start maxSize).bind fun t events hstored => ?_
    exact (ih t).imp fun u later hlater => FreeLists.replay_append hstored.1 hlater

theorem create_ensures (maxSize slotCount : Nat) :
    (create maxSize slotCount).Ensures fun created events =>
      match created with
      | .error _ => events = []
      | .ok a => ∃ changes, events = changes ++ [.created slotCount maxSize a.classCount] ∧
        (⟨List.replicate a.classCount .empty⟩ : FreeLists).replay changes = some a.free := by
  unfold create
  rw [Word.isPowerOfTwo_eq, pure_bind]
  split
  · exact ensures_pure rfl
  split
  · exact ensures_pure rfl
  refine (Word.silently_ceilLog2 _).bind fun top _ => ?_
  refine (Word.silently_add _ _ _).bind fun classes _ => ?_
  unfold FreeLists.create
  rw [bind_assoc]
  refine (silently_require _ _).bind fun _ _ => ?_
  rw [pure_bind]
  refine (fillSlots_ensures _ _ _).bind fun s changes hreplayed => ?_
  refine (ensures_record _).bind fun _ entry hentry => ensures_pure ?_
  have hclasses : s.count = classes :=
    (FreeLists.count_replay hreplayed).trans List.length_replicate
  refine ⟨changes, by rw [hentry, List.append_nil, classCount], ?_⟩
  rw [classCount, hclasses]
  exact hreplayed

/-- Numbers that fit into words are the sizes of an allocator, or they are refused. -/
theorem exists_created (hmax : maxSize < 2 ^ indexBits) (slotCount : Nat) :
    ∃ created, (create maxSize slotCount).outcome.result = .ok created := by
  by_cases hpower : Bits.isPowerOfTwo maxSize = false
  · exact ⟨.error (.notPowerOfTwo maxSize), by rw [create_of_not_power hpower]; rfl⟩
  obtain ⟨top, rfl⟩ := (Bits.isPowerOfTwo_iff _).1 (Bool.eq_true_of_not_eq_false hpower)
  by_cases htotal : 2 ^ indexBits ≤ 2 ^ top * slotCount
  · exact ⟨.error (.tooLarge (2 ^ top) slotCount), by rw [create_of_large htotal]; rfl⟩
  have htop : top < indexBits := (Nat.pow_lt_pow_iff_right (by decide)).1 hmax
  exact ⟨_, outcome_create_iff.2 ⟨⟨⟨top, htop, rfl⟩, Nat.lt_of_not_le htotal⟩, rfl⟩⟩

end Creation

end Allocator

namespace Reachable
open Allocator

/-- The journal, read as text, is a full account of what happens to the free lists. A refusal is not
written down. An accepted request writes down changes of the free lists, and one line at last. The
changes can be followed, and lead from the lists before the request, without what its search took,
to those after it; a new allocator begins with empty lists. -/
theorem journal_accounts {maxSize slotCount : Nat} (hmax : maxSize < 2 ^ indexBits) :
    (∃ created, (create maxSize slotCount).outcome.result = .ok created ∧
      match created with
      | .error _ => (create maxSize slotCount).outcome.journal = []
      | .ok a => (create maxSize slotCount).outcome.journal.Accounts
        ⟨List.replicate a.classCount .empty⟩ a.free ("DEBUG " ++
          s!"power2 allocator: {slotCount} slots of {maxSize} ({a.classCount} size classes)")) ∧
    ∀ a, Reachable maxSize slotCount a → ∀ request : Request, request.InWords →
      ∃ reply, (request.perform a).outcome.result = .ok reply ∧
        match reply.answer with
        | .error _ => (request.perform a).outcome.journal = []
        | .ok answer => ∃ message taken, request.Closes a maxSize answer message taken ∧
          (∀ p ∈ taken, ∀ q ∈ a.freePieces, q.offset = p.offset → q = p) ∧
          (request.perform a).outcome.journal.Accounts (a.free.without taken) reply.after.free
            ("DEBUG " ++ message) := by
  refine ⟨?_, fun a h request hwords => ?_⟩
  · obtain ⟨created, hrun⟩ := exists_created hmax slotCount
    have hcreated := (create_ensures maxSize slotCount).of_outcome hrun
    refine ⟨created, hrun, ?_⟩
    cases created with
    | error refusal => exact hcreated
    | ok a =>
      obtain ⟨changes, hjournal, hreplayed⟩ := hcreated
      change Journal.Accounts _ _ _ _
      rw [hjournal]
      exact Journal.accounts_of_replay hreplayed rfl
  · obtain ⟨hcanonical, hsize, -⟩ := h.canonical
    obtain ⟨reply, hrun, -⟩ := (hcanonical.perform_answers hwords).exists_reply hcanonical
    have hsettled := (request.perform_settles a).of_outcome hrun
    generalize (request.perform a).outcome.journal = journal at hsettled ⊢
    rw [← hcanonical.maxSize_eq, hsize] at hsettled
    refine ⟨reply, hrun, ?_⟩
    cases hsettled with
    | refused refusal => rfl
    | accepted closed debug replayed =>
      refine ⟨_, _, closed, fun p hp q hq hoffset => ?_,
        Journal.accounts_of_replay replayed debug⟩
      exact hcanonical.tiling_freePieces.injOn_offset hq (closed.held p hp) hoffset

/-- What the next theorem is applied to: beside one run, an allocation that leaves the end of the
piece it is in, and a batch. -/
theorem placed_beside_run : ∃ a b c, Reachable 4 4 a ∧ a.allocations = [(1, 2)] ∧
    a.free.top = 2 ∧ ⟨2, 4, 4⟩ ∈ a.freePieces ∧
    ((Request.allocate 3).perform a).outcome.result = .ok ⟨.ok (some 4), b⟩ ∧
    ((Request.allocate 3).perform a).outcome.journal =
      [.stored ⟨0, 7, 1⟩, .allocated 3 4 4 4] ∧
    ((Request.allocateMany 3 2).perform a).outcome.result = .ok ⟨.ok (some 8), c⟩ := by
  obtain ⟨h, hlist⟩ := beside_run
  obtain ⟨c, hmany⟩ := batch_beside_run
  obtain ⟨b, hone⟩ : ∃ b : Allocator, (allocate _ 3).outcome.result = .ok ⟨.ok 4, b⟩ :=
    ⟨_, h.canonical.1.allocate_ok_iff.2
      ⟨by decide, by decide, ⟨2, 4, 4⟩, by decide +kernel, by decide, rfl⟩⟩
  refine ⟨_, b, c, h, hlist, by decide +kernel, by decide +kernel, ?_, by decide +kernel, ?_⟩
  · rw [Request.perform, result_map, hone]
    rfl
  · rw [Request.perform, result_map, hmany]
    rfl

theorem journal_accounts_beside_run :
    ∃ (a b c : Allocator) (taken : List Piece), Reachable 4 4 a ∧ a.allocations = [(1, 2)] ∧
      ((Request.allocate 3).perform a).outcome.result = .ok ⟨.ok (some 4), b⟩ ∧
      ((Request.allocate 3).perform a).outcome.journal.lines .trace =
        ["TRACE free list 0: insert 7+1", "DEBUG allocate 3: 4 (from 4+4)"] ∧
      (a.free.without [⟨2, 4, 4⟩]).replayLines ["TRACE free list 0: insert 7+1"] = some b.free ∧
      ((Request.allocateMany 3 2).perform a).outcome.result = .ok ⟨.ok (some 8), c⟩ ∧
      taken.map (fun p => (p.sizeClass, p.offset)) = [(2, 8), (2, 12)] ∧
      ((Request.allocateMany 3 2).perform a).outcome.journal.Accounts (a.free.without taken) c.free
        "DEBUG allocate 2 x 3: 8" := by
  obtain ⟨a, b, c, h, hlist, htop, hpiece, hone, hjournal, hmany⟩ := placed_beside_run
  have hlines : Journal.lines .trace [.stored ⟨0, 7, 1⟩, .allocated 3 4 4 4] =
      ["TRACE free list 0: insert 7+1"] ++ ["DEBUG allocate 3: 4 (from 4+4)"] := by decide +kernel
  have hnamed : Event.pieceTaken? "DEBUG allocate 3: 4 (from 4+4)" = some (4, 4) := by
    decide +kernel
  rw [← hjournal] at hlines
  have hmax : 4 < 2 ^ indexBits := by decide
  obtain ⟨-, hrequests⟩ := journal_accounts hmax
  obtain ⟨reply, hreply, haccount⟩ := hrequests a h (.allocate 3) (show 3 < 2 ^ indexBits by decide)
  cases hone.symm.trans hreply
  obtain ⟨message, taken, hclosed, honly, changes, hread, -, -, hreplayed⟩ := haccount
  -- the two lines tell the piece that was taken and what came back into the lists
  obtain ⟨rfl, hclosing⟩ := List.append_inj' (hread.symm.trans hlines) rfl
  have hfirst : taken = [⟨2, 4, 4⟩] := by
    cases hclosed with
    | @allocate _ _ p _ held text named =>
      rw [List.singleton_inj.1 hclosing, hnamed] at named
      obtain ⟨hoffset, -⟩ := Prod.mk.inj (Option.some.inj named)
      rw [honly p List.mem_cons_self _ hpiece hoffset]
  subst hfirst
  obtain ⟨reply, hreply, haccount⟩ := hrequests a h (.allocateMany 3 2) (by constructor <;> decide)
  cases hmany.symm.trans hreply
  obtain ⟨message, taken, hclosed, -, hjournal⟩ := haccount
  cases hclosed with
  | allocateMany many held places =>
    rw [htop] at places
    exact ⟨a, b, c, taken, h, hlist, hone, hlines, hreplayed, hmany, places, hjournal⟩

end Reachable

end AlignedRuns
