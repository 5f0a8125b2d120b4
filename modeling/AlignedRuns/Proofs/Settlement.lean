import AlignedRuns.History
import AlignedRuns.Proofs.Lines
set_option autoImplicit false

/-!
# How requests are settled

On any allocator, whatever its parts hold: a request that comes to an end has been refused with
nothing changed and nothing written down, or its journal says all that it did to the free lists, up
to the pieces that its search took, and ends in one entry for the request itself.
-/

namespace AlignedRuns
open Traced

/-- The message that ends the journal of an accepted request, and the pieces that its search takes
from the free lists before it writes anything down. The piece that a run is allocated from is read
in the line. The places of a batch are `stride` apart. -/
inductive Request.Closes (a : Allocator) (stride : Nat) :
    Request → Option Nat → String → List Piece → Prop where
  | allocate {size offset : Nat} {p : Piece} {message : String} (held : p ∈ a.freePieces)
    (text : message = s!"allocate {size}: {offset} (from {p.offset}+{p.len})")
    (named : Event.pieceTaken? ("DEBUG " ++ message) = some (p.offset, p.len)) :
    Closes a stride (.allocate size) (some offset) message [p]
  | release {offset size : Nat} (live : a.sizeAt offset = .ok size) :
    Closes a stride (.release offset) none s!"release {offset}+{size}" []
  | reserve {offset size left right : Nat} :
    Closes a stride (.reserve offset size) none
      s!"reserve {offset}+{size} (free gap {left}..{right})" []
  | allocateOne {size : Nat} {answer : Option Nat} {message : String} {taken : List Piece}
    (one : Closes a stride (.allocate size) answer message taken) :
    Closes a stride (.allocateMany size 1) answer message taken
  | allocateMany {size count first : Nat} {taken : List Piece} (many : 2 ≤ count)
    (held : ∀ p ∈ taken, p ∈ a.freePieces)
    (places : taken.map (fun p => (p.sizeClass, p.offset)) =
      (List.range count).map fun i => (a.free.top, first + i * stride)) :
    Closes a stride (.allocateMany size count) (some first)
      s!"allocate {count} x {size}: {first}" taken
  | releaseOne {offset : Nat} {message : String}
    (one : Closes a stride (.release offset) none message []) :
    Closes a stride (.releaseMany offset 1) none message []
  | releaseMany {offset count size : Nat} (many : 2 ≤ count) (live : a.sizeAt offset = .ok size) :
    Closes a stride (.releaseMany offset count) none s!"release {count} x {offset}+{size}" []

theorem Request.Closes.held {a : Allocator} {stride : Nat} {request : Request}
    {answer : Option Nat} {message : String} {taken : List Piece}
    (h : request.Closes a stride answer message taken) : ∀ p ∈ taken, p ∈ a.freePieces := by
  induction h with
  | allocate held text named => exact List.forall_mem_singleton.2 held
  | allocateMany many held places => exact held
  | release | reserve | releaseOne | releaseMany => exact nofun
  | allocateOne one ih => exact ih

namespace Allocator

/-- A request has been refused, or its journal leads from the free lists without the pieces taken to
those after it and ends in the entry that closes it. -/
inductive Settles {α : Type} (a : Allocator) (closes : α → String → List Piece → Prop) :
    Reply α → Journal → Prop where
  | refused (refusal : Refusal) : a.Settles closes (a.refuse refusal) []
  | accepted {value : α} {b : Allocator} {changes : Journal} {entry : Event} {taken : List Piece}
    (closed : closes value entry.message taken) (debug : entry.severity = .debug)
    (replayed : (a.free.without taken).replay changes = some b.free) :
    a.Settles closes (b.accept value) (changes ++ [entry])

/-- The last step of an accepted request is its entry in the journal. -/
theorem ensures_accept {α : Type} {a b : Allocator} {closes : α → String → List Piece → Prop}
    {value : α} {changes : Journal} {entry : Event} {taken : List Piece}
    (closed : closes value entry.message taken) (debug : entry.severity = .debug)
    (replayed : (a.free.without taken).replay changes = some b.free) :
    (do record entry; pure (b.accept value) : Traced (Reply α)).Ensures
      fun reply later => a.Settles closes reply (changes ++ later) := by
  refine (ensures_record entry).bind fun _ events hevents => ?_
  subst hevents
  exact ensures_pure (.accepted closed debug replayed)

theorem silently_gapAround (a : Allocator) (offset : Nat) :
    (a.gapAround offset).Silently fun _ => True := by
  unfold gapAround
  cases a.inUse.prev? offset with
  | none => exact silently_pure trivial
  | some e => exact (Word.silently_add _ _ _).bind fun left _ => silently_pure trivial

theorem silently_markInUse (a : Allocator) (offset size : Nat) :
    (a.markInUse offset size).Silently fun b => b.free = a.free := by
  unfold markInUse
  cases a.inUse.get? offset with
  | none => exact silently_pure rfl
  | some old => exact ensures_inconsistent _ _

theorem placeIn_ensures (a : Allocator) (size start len : Nat) :
    (a.placeIn size start len).Ensures fun placed events =>
      a.free.replay events = some placed.2.free := by
  unfold placeIn
  refine (Word.silently_add _ _ _).bind fun stop _ => ?_
  refine (Word.silently_sub _ _).bind fun highest _ => ?_
  refine (Word.silently_ceilLog2 _).bind fun c _ => ?_
  refine (Word.silently_bit _ _).bind fun unit _ => ?_
  refine (Word.silently_alignDown _ _).bind fun offset _ => ?_
  refine (silently_require _ _).bind fun _ _ => ?_
  refine (Word.silently_sub _ _).bind fun before _ => ?_
  refine (FreeLists.insertRun_ensures _ _ _).bind fun s first hfirst => ?_
  refine (Word.silently_add _ _ _).bind fun next _ => ?_
  refine (Word.silently_sub _ _).bind fun behind _ => ?_
  refine (FreeLists.insertRun_ensures _ _ _).bind fun t second hsecond => ?_
  refine (silently_markInUse _ _ _).bind fun b hb => ensures_pure ?_
  rw [List.append_nil, hb]
  exact FreeLists.replay_append hfirst.1 hsecond.1

theorem freeRun_ensures (a : Allocator) (offset size : Nat) :
    (a.freeRun offset size).Ensures fun b events => a.free.replay events = some b.free := by
  unfold freeRun
  refine (silently_gapAround a offset).bind fun gap _ => ?_
  refine (Word.silently_add _ _ _).bind fun stop _ => ?_
  refine (Word.silently_sub _ _).bind fun before _ => ?_
  refine (FreeLists.removeRun_ensures _ _ _).bind fun s first hfirst => ?_
  refine (Word.silently_sub _ _).bind fun behind _ => ?_
  refine (FreeLists.removeRun_ensures _ _ _).bind fun t second hsecond => ?_
  refine (Word.silently_sub _ _).bind fun whole _ => ?_
  refine (FreeLists.insertRun_ensures _ _ _).bind fun u third hthird => ensures_pure ?_
  rw [List.append_nil]
  exact FreeLists.replay_append hfirst.1 (FreeLists.replay_append hsecond.1 hthird.1)

theorem carveGap_ensures (a : Allocator) (offset size left right : Nat) :
    (a.carveGap offset size left right).Ensures fun b events =>
      a.free.replay events = some b.free := by
  unfold carveGap
  refine (Word.silently_sub _ _).bind fun whole _ => ?_
  refine (FreeLists.removeRun_ensures _ _ _).bind fun s first hfirst => ?_
  refine (Word.silently_sub _ _).bind fun before _ => ?_
  refine (FreeLists.insertRun_ensures _ _ _).bind fun t second hsecond => ?_
  refine (Word.silently_add _ _ _).bind fun stop _ => ?_
  refine (Word.silently_sub _ _).bind fun behind _ => ?_
  refine (FreeLists.insertRun_ensures _ _ _).bind fun u third hthird => ?_
  refine (silently_markInUse _ _ _).imp fun b later hb => ?_
  obtain ⟨rfl, hb⟩ := hb
  rw [List.append_nil, hb]
  exact FreeLists.replay_append hfirst.1 (FreeLists.replay_append hsecond.1 hthird.1)

section Single
variable (a : Allocator) (stride : Nat)

theorem allocate_settles (size : Nat) : (a.allocate size).Ensures
    (a.Settles fun offset => Request.Closes a stride (.allocate size) (some offset)) := by
  unfold allocate
  cases a.sizeRefusal? size with
  | some refusal => exact ensures_pure (.refused refusal)
  | none =>
    refine (Word.silently_ceilLog2 _).bind fun c _ => ?_
    refine (FreeLists.silently_takeFit _ _ _).bind fun found hfound => ?_
    cases hfound with
    | nothing => exact ensures_pure (.refused _)
    | piece hp =>
      refine (placeIn_ensures _ _ _ _).bind fun placed changes hreplayed => ?_
      exact ensures_accept (.allocate hp rfl (Event.pieceTaken?_allocate _ _ _ _)) rfl hreplayed

theorem release_settles (offset : Nat) : (a.release offset).Ensures
    (a.Settles fun _ => Request.Closes a stride (.release offset) none) := by
  unfold release
  cases hlive : a.sizeAt offset with
  | error refusal => exact ensures_pure (.refused refusal)
  | ok size =>
    refine (freeRun_ensures a offset size).bind fun b changes hreplayed => ?_
    exact ensures_accept (.release hlive) rfl hreplayed

theorem reserve_settles (offset size : Nat) : (a.reserve offset size).Ensures
    (a.Settles fun _ => Request.Closes a stride (.reserve offset size) none) := by
  unfold reserve
  split
  · exact ensures_pure (.refused _)
  · split
    · exact ensures_pure (.refused _)
    · refine (silently_gapAround a offset).bind fun gap _ => ?_
      obtain ⟨left, right⟩ := gap
      simp only
      split
      · exact ensures_pure (.refused _)
      · refine (carveGap_ensures a offset size left right).bind fun b changes hreplayed => ?_
        exact ensures_accept .reserve rfl hreplayed

end Single

section Batches
variable {a : Allocator} {top size first stride remaining i : Nat} {taken : List Piece}

theorem Settles.imp {α : Type} {closes others : α → String → List Piece → Prop} {reply : Reply α}
    {events : Journal} (h : a.Settles closes reply events)
    (himp : ∀ value message taken, closes value message taken → others value message taken) :
    a.Settles others reply events := by
  cases h with
  | refused refusal => exact .refused refusal
  | accepted closed debug replayed => exact .accepted (himp _ _ _ closed) debug replayed

theorem Settles.map {α β : Type} {closes : α → String → List Piece → Prop}
    {others : β → String → List Piece → Prop} {f : α → β} {reply : Reply α} {events : Journal}
    (h : a.Settles closes reply events)
    (hmap : ∀ value message taken, closes value message taken → others (f value) message taken) :
    a.Settles others (reply.map f) events := by
  cases h with
  | refused refusal => exact .refused refusal
  | accepted closed debug replayed => exact .accepted (hmap _ _ _ closed) debug replayed

theorem silently_batchPlace (first stride i : Nat) :
    (batchPlace first stride i).Silently (· = first + i * stride) := by
  unfold batchPlace
  refine (Word.silently_mul _ _ _).bind fun step hstep => ?_
  subst hstep
  exact Word.silently_add _ _ _

theorem fillTopPiece_ensures (size : Nat) {p : Piece} (hp : p ∈ a.freePieces) :
    (a.fillTopPiece p.sizeClass size p.offset).Ensures fun b events =>
      (a.free.remove p).replay events = some b.free ∧
        ∃ ps : List Piece, events = ps.map .stored := by
  rw [fillTopPiece, FreeLists.take_of_mem hp, pure_bind]
  refine (Word.silently_add _ _ _).bind fun next _ => ?_
  refine (Word.silently_sub _ _).bind fun behind _ => ?_
  refine (FreeLists.insertRun_ensures _ _ _).bind fun s events hstored => ?_
  refine (silently_markInUse _ _ _).imp fun b later hb => ?_
  obtain ⟨rfl, hfree⟩ := hb
  obtain ⟨hreplayed, ps, rfl, -⟩ := hstored
  rw [List.append_nil, hfree]
  exact ⟨hreplayed, ps, rfl⟩

/-- The pieces of a batch stay until their turn comes, so they may as well be taken all at once. -/
theorem fillTopPieces_ensures (hnodup : taken.Nodup) (held : ∀ p ∈ taken, p ∈ a.freePieces)
    (places : taken.map (fun p => (p.sizeClass, p.offset)) =
      (List.range' i remaining).map fun j => (top, first + j * stride)) :
    (a.fillTopPieces top size first stride remaining i).Ensures fun b events =>
      (a.free.without taken).replay events = some b.free := by
  induction remaining generalizing a i taken with
  | zero =>
    have hnone : taken = [] := List.map_eq_nil_iff.1 places
    subst hnone
    exact ensures_pure rfl
  | succ remaining ih =>
    rw [List.range'_succ, List.map_cons] at places
    obtain ⟨p, rest, rfl, hkey, hrest⟩ := List.map_eq_cons_iff.1 places
    obtain ⟨hclass, hoffset⟩ := Prod.mk.inj hkey
    obtain ⟨hp, hothers⟩ := List.forall_mem_cons.1 held
    obtain ⟨hnot, hnodup⟩ := List.nodup_cons.1 hnodup
    unfold fillTopPieces
    refine (silently_batchPlace first stride i).bind fun place hplace => ?_
    subst hclass
    rw [hplace, ← hoffset]
    refine (fillTopPiece_ensures size hp).bind fun b events hfilled => ?_
    obtain ⟨hreplayed, ps, rfl⟩ := hfilled
    have hlater : ∀ q ∈ rest, q ∈ (a.free.remove p).toList := fun q hq =>
      FreeLists.mem_remove_of_ne hp (hothers q hq) (ne_of_mem_of_not_mem hq hnot)
    obtain ⟨hkept, hwithout⟩ := FreeLists.replay_without hnodup hlater hreplayed
    exact (ih hnodup hkept hrest).imp fun c later hreplay =>
      FreeLists.replay_append hwithout hreplay

theorem freeRuns_ensures (a : Allocator) (first stride remaining i : Nat) :
    (a.freeRuns first stride remaining i).Ensures fun b events =>
      a.free.replay events = some b.free := by
  induction remaining generalizing a i with
  | zero => exact ensures_pure rfl
  | succ remaining ih =>
    unfold freeRuns
    refine (silently_batchPlace first stride i).bind fun place _ => ?_
    cases a.inUse.get? place with
    | none => exact ih a (i + 1)
    | some size =>
      refine (freeRun_ensures a place size).bind fun b events hreplayed => ?_
      exact (ih b (i + 1)).imp fun c later hlater => FreeLists.replay_append hreplayed hlater

theorem silently_findUnallocated (a : Allocator) (first stride remaining i : Nat) :
    (a.findUnallocated first stride remaining i).Silently fun _ => True := by
  induction remaining generalizing i with
  | zero => exact silently_pure trivial
  | succ remaining ih =>
    unfold findUnallocated
    refine (silently_batchPlace first stride i).bind fun place _ => ?_
    split
    · exact ih (i + 1)
    · exact silently_pure trivial

/-- The pieces in which a batch finds room. -/
theorem exists_taken {count : Nat}
    (hroom : ∀ i < count, a.free.RoomAt size (first + i * stride)) :
    ∃ taken : List Piece, (∀ p ∈ taken, p ∈ a.freePieces) ∧
      taken.map (fun p => (p.sizeClass, p.offset)) =
        (List.range count).map fun i => (a.free.top, first + i * stride) := by
  refine ⟨(List.range count).map fun i => ⟨a.free.top, first + i * stride,
    (a.free.get? a.free.top (first + i * stride)).getD 0⟩, ?_, by rw [List.map_map]; rfl⟩
  intro p hp
  obtain ⟨i, hi, rfl⟩ := List.mem_map.1 hp
  obtain ⟨len, -, hmem⟩ := (hroom i (List.mem_range.1 hi)).exists_piece
  have hget := FreeLists.mem_toList_iff.1 hmem
  exact FreeLists.mem_toList_iff.2 (by rw [hget]; rfl)

theorem nodup_of_places {count : Nat} (hstride : 0 < stride)
    (places : taken.map (fun p => (p.sizeClass, p.offset)) =
      (List.range count).map fun i => (a.free.top, first + i * stride)) : taken.Nodup := by
  apply List.Nodup.of_map fun p : Piece => (p.sizeClass, p.offset)
  rw [places]
  refine List.nodup_range.map fun i j hij => ?_
  exact Nat.eq_of_mul_eq_mul_right hstride (Nat.add_left_cancel (Prod.mk.inj hij).2)

theorem allocateMany_settles (a : Allocator) (size count : Nat) :
    (a.allocateMany size count).Ensures (a.Settles fun first =>
      Request.Closes a (2 ^ a.free.top) (.allocateMany size count) (some first)) := by
  unfold allocateMany
  split
  · exact ensures_pure (.refused _)
  split
  · rename_i hone
    subst hone
    exact (allocate_settles a _ size).imp fun _ _ h => h.imp fun _ _ _ => .allocateOne
  cases a.sizeRefusal? size with
  | some refusal => exact ensures_pure (.refused refusal)
  | none =>
    refine (Word.silently_ceilLog2 _).bind fun c _ => ?_
    refine (FreeLists.silently_topClass _).bind fun top htop => ?_
    subst htop
    split
    · exact ensures_pure (.refused _)
    refine (Word.silently_bit _ _).bind fun room _ => ?_
    refine (Word.silently_mul _ _ _).bind fun span _ => ?_
    split
    · exact ensures_pure (.refused _)
    refine (Word.silently_ceilLog2 _).bind fun exponent _ => ?_
    refine (Word.silently_bit _ _).bind fun align _ => ?_
    refine (FreeLists.silently_findTopClassRuns _ _ _ _).bind fun found hfound => ?_
    cases found with
    | none => exact ensures_pure (.refused _)
    | some first =>
      obtain ⟨taken, held, places⟩ := exists_taken (hfound first rfl)
      refine (Word.silently_bit _ _).bind fun stride hstride => ?_
      subst hstride
      have hnodup := nodup_of_places (Nat.two_pow_pos a.free.top) places
      refine (fillTopPieces_ensures hnodup held (List.range_eq_range' ▸ places)).bind
        fun b changes hreplayed => ?_
      exact ensures_accept (.allocateMany (by omega) held places) rfl hreplayed

theorem releaseMany_settles (a : Allocator) (stride offset count : Nat) :
    (a.releaseMany offset count).Ensures (a.Settles fun _ =>
      Request.Closes a stride (.releaseMany offset count) none) := by
  unfold releaseMany
  split
  · exact ensures_pure (.refused _)
  split
  · rename_i hone
    subst hone
    refine (release_settles a stride offset).imp fun _ _ h => h.imp fun _ _ taken hclosed => ?_
    cases hclosed with
    | release live => exact .releaseOne (.release live)
  cases hlive : a.sizeAt offset with
  | error refusal => exact ensures_pure (.refused refusal)
  | ok size =>
    refine (FreeLists.silently_topClass _).bind fun top _ => ?_
    refine (Word.silently_ceilLog2 _).bind fun c _ => ?_
    split
    · exact ensures_pure (.refused _)
    refine (Word.silently_bit _ _).bind fun stride _ => ?_
    refine (Word.silently_sub _ _).bind fun others _ => ?_
    refine (Word.silently_mul _ _ _).bind fun reach _ => ?_
    refine (Word.silently_add _ _ _).bind fun last _ => ?_
    split
    · exact ensures_pure (.refused _)
    refine (silently_findUnallocated _ _ _ _ _).bind fun found _ => ?_
    cases found with
    | some place => exact ensures_pure (.refused _)
    | none =>
      refine (freeRuns_ensures a _ _ _ _).bind fun b changes hreplayed => ?_
      exact ensures_accept (.releaseMany (by omega) hlive) rfl hreplayed

end Batches

end Allocator

namespace Request
open Allocator

theorem perform_settles (request : Request) (a : Allocator) :
    (request.perform a).Ensures (a.Settles (request.Closes a (2 ^ a.free.top))) := by
  cases request with
  | allocate size =>
    exact Ensures.map ((allocate_settles a _ size).imp fun _ _ h => h.map fun _ _ _ => id)
  | release offset =>
    exact Ensures.map ((release_settles a _ offset).imp fun _ _ h => h.map fun _ _ _ => id)
  | reserve offset size =>
    exact Ensures.map ((reserve_settles a _ offset size).imp fun _ _ h => h.map fun _ _ _ => id)
  | allocateMany size count =>
    exact Ensures.map ((allocateMany_settles a size count).imp fun _ _ h => h.map fun _ _ _ => id)
  | releaseMany offset count =>
    exact Ensures.map
      ((releaseMany_settles a _ offset count).imp fun _ _ h => h.map fun _ _ _ => id)

/-- A refused request changes nothing and writes nothing down, whatever the free lists and the map
of allocations hold. -/
theorem refused_unchanged {a : Allocator} {request : Request} {reply : Reply (Option Nat)}
    {refusal : Refusal} (performed : (request.perform a).outcome.result = .ok reply)
    (refused : reply.answer = .error refusal) :
    reply.after = a ∧ (request.perform a).outcome.journal = [] := by
  have hsettled := (perform_settles request a).of_outcome performed
  generalize (request.perform a).outcome.journal = journal at hsettled ⊢
  cases hsettled with
  | refused refusal => exact ⟨rfl, rfl⟩
  | accepted closed debug replayed => cases refused

theorem refused_unchanged_misaligned_piece :
    ∃ (a : Allocator) (reply : Reply (Option Nat)),
      a.freePieces = [⟨2, 1, 7⟩] ∧ a.allocations = [(0, 9)] ∧
      ((allocateMany 3 2).perform a).outcome.result = .ok reply ∧
      reply.answer = .error (.outOfSpace 3 2) ∧ reply.after = a ∧
      ((allocateMany 3 2).perform a).outcome.journal = [] := by
  let a : Allocator :=
    ⟨4, 8, ⟨[.empty, .empty, IndexMap.empty.insert 1 7]⟩, IndexMap.empty.insert 0 9⟩
  have performed : ((allocateMany 3 2).perform a).outcome.result =
      .ok (Reply.map some (a.refuse (.outOfSpace 3 2))) := by rfl
  obtain ⟨hafter, hjournal⟩ := refused_unchanged performed rfl
  exact ⟨a, _, by decide, by decide, performed, rfl, hafter, hjournal⟩

end Request

end AlignedRuns
