import AlignedRuns.Proofs.Endings
import AlignedRuns.Proofs.Searches
set_option autoImplicit false

namespace AlignedRuns

namespace FreeLists
open Traced

/-- Does to the free lists what an event says of them. Storing over a piece, dropping one that is
not there with just this length, and what says nothing of free lists cannot be followed. -/
def follow? (s : FreeLists) : Event → Option FreeLists
  | .stored p =>
    if p.sizeClass < s.count ∧ s.get? p.sizeClass p.offset = none then some (s.put p) else none
  | .dropped p => if s.get? p.sizeClass p.offset = some p.len then some (s.remove p) else none
  | .created .. | .allocated .. | .released .. | .reserved .. | .allocatedMany ..
  | .releasedMany .. | .violated _ => none

def replay (s : FreeLists) (events : Journal) : Option FreeLists := events.foldlM follow? s

def without (s : FreeLists) (ps : List Piece) : FreeLists := ps.foldl remove s

variable {s t u : FreeLists} {events later : Journal} {e : Event} {p q : Piece}

theorem follow?_stored_iff : s.follow? (.stored p) = some t ↔
    p.sizeClass < s.count ∧ s.get? p.sizeClass p.offset = none ∧ t = s.put p := by
  rw [follow?]
  split
  · rename_i h
    rw [Option.some.injEq, eq_comm, and_iff_right h.1, and_iff_right h.2]
  · rename_i h
    exact iff_of_false nofun fun hall => h ⟨hall.1, hall.2.1⟩

theorem follow?_dropped_iff : s.follow? (.dropped p) = some t ↔ p ∈ s.toList ∧ t = s.remove p := by
  rw [follow?, mem_toList_iff]
  split
  · rename_i h
    rw [Option.some.injEq, eq_comm, and_iff_right h]
  · rename_i h
    exact iff_of_false nofun fun hall => h hall.1

theorem count_follow? (h : s.follow? e = some t) : t.count = s.count := by
  cases e with
  | stored p =>
    obtain ⟨-, -, rfl⟩ := follow?_stored_iff.1 h
    exact count_put s p
  | dropped p =>
    obtain ⟨-, rfl⟩ := follow?_dropped_iff.1 h
    exact count_remove s p
  | _ => cases h

theorem trace_of_follow? (h : s.follow? e = some t) : e.severity = .trace := by
  cases e with
  | stored p => rfl
  | dropped p => rfl
  | _ => cases h

theorem replay_nil (s : FreeLists) : s.replay [] = some s := rfl

theorem replay_cons_iff : s.replay (e :: events) = some u ↔
    ∃ t, s.follow? e = some t ∧ t.replay events = some u := by
  rw [replay, List.foldlM_cons]
  exact Option.bind_eq_some_iff

theorem replay_append (h : s.replay events = some t) (hlater : t.replay later = some u) :
    s.replay (events ++ later) = some u := by
  rw [replay, List.foldlM_append]
  exact Option.bind_eq_some_iff.2 ⟨t, h, hlater⟩

theorem count_replay (h : s.replay events = some t) : t.count = s.count := by
  induction events generalizing s with
  | nil => exact congrArg count (Option.some.inj h).symm
  | cons e events ih =>
    obtain ⟨middle, hhere, hrest⟩ := replay_cons_iff.1 h
    exact (ih hrest).trans (count_follow? hhere)

theorem trace_of_replay (h : s.replay events = some t) : ∀ e ∈ events, e.severity = .trace := by
  induction events generalizing s with
  | nil => exact nofun
  | cons e events ih =>
    obtain ⟨middle, hhere, hrest⟩ := replay_cons_iff.1 h
    exact List.forall_mem_cons.2 ⟨trace_of_follow? hhere, ih hrest⟩

/-- Nothing comes into the lists but what the events say was stored. -/
theorem mem_of_replay (h : s.replay events = some t) (hq : q ∈ t.toList) :
    q ∈ s.toList ∨ .stored q ∈ events := by
  induction events generalizing s with
  | nil =>
    cases h
    exact .inl hq
  | cons e events ih =>
    obtain ⟨middle, hhere, hrest⟩ := replay_cons_iff.1 h
    rcases ih hrest with hmiddle | hlater
    · cases e with
      | stored p =>
        obtain ⟨hclass, -, rfl⟩ := follow?_stored_iff.1 hhere
        rcases mem_toList_of_put hclass hmiddle with rfl | hold
        · exact .inr List.mem_cons_self
        · exact .inl hold
      | dropped p =>
        obtain ⟨hp, rfl⟩ := follow?_dropped_iff.1 hhere
        exact .inl (mem_toList_of_remove (class_lt_of_mem hp) hmiddle)
      | _ => cases hhere
    · exact .inr (List.mem_cons_of_mem _ hlater)

theorem silently_list (s : FreeLists) (c : Nat) :
    (s.list c).Silently fun pieces => c < s.count ∧ pieces = s.listOf c := by
  by_cases hc : c < s.count
  · rw [list_eq_listOf hc]
    exact silently_pure ⟨hc, rfl⟩
  · have hnone : s.lists[c]? = none := List.getElem?_eq_none (Nat.le_of_not_lt hc)
    rw [list, hnone]
    exact ensures_fault _ _

theorem store_ensures (s : FreeLists) (p : Piece) :
    (s.store p).Ensures fun t events => events = [.stored p] ∧ s.follow? (.stored p) = some t := by
  unfold store
  refine (ensures_record _).bind fun _ events hevents => ?_
  refine (silently_list s p.sizeClass).bind fun pieces hpieces => ?_
  obtain ⟨hclass, rfl⟩ := hpieces
  subst hevents
  cases hget : (s.listOf p.sizeClass).get? p.offset with
  | none =>
    rw [← get?_eq_listOf] at hget
    exact ensures_pure ⟨rfl, follow?_stored_iff.2 ⟨hclass, hget, rfl⟩⟩
  | some old => exact ensures_inconsistent _ _

theorem drop_ensures (s : FreeLists) (p : Piece) :
    (s.drop p).Ensures fun t events => events = [.dropped p] ∧ s.follow? (.dropped p) = some t := by
  unfold drop
  refine (ensures_record _).bind fun _ events hevents => ?_
  refine (silently_list s p.sizeClass).bind fun pieces hpieces => ?_
  obtain ⟨-, rfl⟩ := hpieces
  subst hevents
  cases hget : (s.listOf p.sizeClass).get? p.offset with
  | none => exact ensures_inconsistent _ _
  | some stored =>
    by_cases hlen : stored = p.len
    · have hp : p ∈ s.toList := by rw [mem_toList_iff, get?_eq_listOf, hget, hlen]
      simp only [if_pos hlen]
      exact ensures_pure ⟨rfl, follow?_dropped_iff.2 ⟨hp, rfl⟩⟩
    · simp only [if_neg hlen]
      exact ensures_inconsistent _ _

theorem silently_verify (p : Piece) : p.verify.Silently fun _ => True := by
  unfold Piece.verify
  refine (Word.silently_bit _ _).bind fun full _ => ?_
  refine (silently_require _ _).bind fun _ _ => ?_
  exact (silently_require _ _).imp fun _ _ h => ⟨h.1, trivial⟩

theorem silently_step (top offset len : Nat) (h : len ≠ 0) :
    (Split.step top offset len h).Silently fun next =>
      next.piece.stop = next.start ∧ next.start + next.rest = offset + len := by
  unfold Split.step
  refine (Word.silently_ceilLog2 _).bind fun fill _ => ?_
  refine (silently_verify _).bind fun _ _ => ?_
  refine (Word.silently_add _ _ _).bind fun start hstart => ?_
  refine (Word.silently_subtract _ _).bind fun rest _ => silently_pure ⟨hstart.symm, ?_⟩
  have := rest.2
  simp only
  omega

theorem silently_topClass (s : FreeLists) : s.topClass.Silently (· = s.top) :=
  Word.silently_sub _ _

/-- A change made along a run, whose steps each write down one event and follow it, writes down
the events of pieces of the run. -/
theorem changeRun_ensures {change : FreeLists → Piece → Traced FreeLists} {event : Piece → Event}
    (hchange : ∀ s p, (change s p).Ensures fun t events =>
      events = [event p] ∧ s.follow? (event p) = some t) (s : FreeLists) (offset len : Nat) :
    (s.changeRun change offset len).Ensures fun t events =>
      s.replay events = some t ∧
        ∃ ps : List Piece, events = ps.map event ∧ ∀ p ∈ ps, p.stop ≤ offset + len := by
  unfold changeRun
  refine (silently_topClass s).bind fun top htop => ?_
  clear htop
  fun_induction Split.walk change top offset len s with
  | case1 => exact ensures_pure ⟨rfl, [], rfl, nofun⟩
  | case2 offset len s h ih =>
    refine (silently_step top offset len h).bind fun next hnext => ?_
    obtain ⟨hstop, hend⟩ := hnext
    refine (hchange s next.piece).bind fun t events hhere => ?_
    obtain ⟨rfl, hfollow⟩ := hhere
    refine (ih next t).imp fun u later hrest => ?_
    obtain ⟨hreplay, ps, rfl, hwithin⟩ := hrest
    refine ⟨replay_cons_iff.2 ⟨t, hfollow, hreplay⟩, next.piece :: ps, rfl, ?_⟩
    exact List.forall_mem_cons.2 ⟨by omega, fun p hp => hend ▸ hwithin p hp⟩

theorem insertRun_ensures (s : FreeLists) (offset len : Nat) :
    (s.insertRun offset len).Ensures fun t events => s.replay events = some t ∧
      ∃ ps : List Piece, events = ps.map .stored ∧ ∀ p ∈ ps, p.stop ≤ offset + len :=
  changeRun_ensures store_ensures s offset len

theorem removeRun_ensures (s : FreeLists) (offset len : Nat) :
    (s.removeRun offset len).Ensures fun t events => s.replay events = some t ∧
      ∃ ps : List Piece, events = ps.map .dropped ∧ ∀ p ∈ ps, p.stop ≤ offset + len :=
  changeRun_ensures drop_ensures s offset len

theorem put_remove (hp : p ∈ s.toList) (hclass : q.sizeClass < s.count)
    (hfree : s.get? q.sizeClass q.offset = none) : (s.remove p).put q = (s.put q).remove p := by
  have hpclass := class_lt_of_mem hp
  refine ext_get? (by simp) fun c offset => ?_
  rw [get?_put (by simpa using hclass), get?_remove hpclass, get?_remove (by simpa using hpclass),
    get?_put hclass]
  by_cases hq : q.sizeClass = c ∧ q.offset = offset
  · have hne : ¬(p.sizeClass = c ∧ p.offset = offset) := by
      rintro ⟨hc, ho⟩
      rw [mem_toList_iff, hc, ho, ← hq.1, ← hq.2, hfree] at hp
      cases hp
    rw [if_pos hq, if_neg hne, if_pos hq]
  · rw [if_neg hq, if_neg hq]

/-- A piece stays while others are stored, so it may as well be taken before them. -/
theorem replay_remove (hp : p ∈ s.toList) {ps : List Piece}
    (h : s.replay (ps.map .stored) = some t) :
    p ∈ t.toList ∧ (s.remove p).replay (ps.map .stored) = some (t.remove p) := by
  induction ps generalizing s with
  | nil =>
    cases h
    exact ⟨hp, rfl⟩
  | cons q ps ih =>
    obtain ⟨middle, hhere, hrest⟩ := replay_cons_iff.1 h
    obtain ⟨hclass, hfree, rfl⟩ := follow?_stored_iff.1 hhere
    have hkept : p ∈ (s.put q).toList :=
      (perm_put hclass hfree).mem_iff.2 (List.mem_cons_of_mem _ hp)
    obtain ⟨hlast, hreplay⟩ := ih hkept hrest
    refine ⟨hlast, replay_cons_iff.2 ⟨(s.remove p).put q, ?_, ?_⟩⟩
    · refine follow?_stored_iff.2 ⟨by simpa using hclass, ?_, rfl⟩
      rw [get?_remove (class_lt_of_mem hp), hfree, ite_self]
    · rw [put_remove hp hclass hfree]
      exact hreplay

theorem mem_remove_of_ne (hp : p ∈ s.toList) (hq : q ∈ s.toList) (hne : q ≠ p) :
    q ∈ (s.remove p).toList :=
  (List.mem_cons.1 ((perm_remove hp).mem_iff.1 hq)).resolve_left hne

theorem replay_without {taken ps : List Piece} (hnodup : taken.Nodup)
    (htaken : ∀ p ∈ taken, p ∈ s.toList) (h : s.replay (ps.map .stored) = some t) :
    (∀ p ∈ taken, p ∈ t.toList) ∧
      (s.without taken).replay (ps.map .stored) = some (t.without taken) := by
  induction taken generalizing s t with
  | nil => exact ⟨nofun, h⟩
  | cons p taken ih =>
    obtain ⟨hp, hrest⟩ := List.forall_mem_cons.1 htaken
    obtain ⟨hnot, hnodup⟩ := List.nodup_cons.1 hnodup
    obtain ⟨hlast, hreplay⟩ := replay_remove hp h
    have hother : ∀ q ∈ taken, q ∈ (s.remove p).toList := fun q hq =>
      mem_remove_of_ne hp (hrest q hq) (ne_of_mem_of_not_mem hq hnot)
    obtain ⟨hkept, hwithout⟩ := ih hnodup hother hreplay
    refine ⟨List.forall_mem_cons.2 ⟨hlast, fun q hq => ?_⟩, hwithout⟩
    exact (perm_remove hlast).mem_iff.2 (List.mem_cons_of_mem _ (hkept q hq))

inductive Took (s : FreeLists) : Option (Nat × Nat) × FreeLists → Prop where
  | nothing : s.Took (none, s)
  | piece {p : Piece} (hp : p ∈ s.toList) : s.Took (some (p.offset, p.len), s.remove p)

theorem mem_toList_of_mem_piecesOf {c : Nat} (hp : p ∈ s.piecesOf c) : p ∈ s.toList := by
  obtain ⟨e, he, rfl⟩ := List.mem_map.1 hp
  rw [mem_toList_iff, get?_eq_listOf]
  exact IndexMap.mem_toList_iff.1 he

theorem silently_takeFit (s : FreeLists) (c size : Nat) : (s.takeFit c size).Silently s.Took := by
  have hclasses : ∀ d ∈ List.range' c (s.count - c), d < s.count := by
    intro d hd
    have := List.mem_range'_1.1 hd
    omega
  rw [takeFit, takeFirstFitAmong_eq hclasses]
  apply silently_pure
  cases hfound : (List.range' c (s.count - c)).findSome? fun d =>
      (s.piecesOf d).find? fun p => size ≤ p.len with
  | none => exact .nothing
  | some p =>
    obtain ⟨d, -, hfind⟩ := List.exists_of_findSome?_eq_some hfound
    exact .piece (mem_toList_of_mem_piecesOf (List.mem_of_find?_eq_some hfind))

theorem silently_hasRoomEvery (s : FreeLists) (size offset stride remaining i : Nat) :
    (hasRoomEvery (s.listOf s.top) size offset stride remaining i).Silently fun every =>
      every = true → ∀ j < remaining, s.RoomAt size (offset + (i + j) * stride) := by
  induction remaining generalizing i with
  | zero => exact silently_pure fun _ j hj => absurd hj (Nat.not_lt_zero j)
  | succ remaining ih =>
    unfold hasRoomEvery
    refine (Word.silently_mul _ _ _).bind fun step hstep => ?_
    refine (Word.silently_add _ _ _).bind fun place hplace => ?_
    subst hstep hplace
    split
    · rename_i hroom
      have hhere : s.RoomAt size (offset + i * stride) := hroom
      refine (ih (i + 1)).imp fun every _ h => ⟨h.1, fun hevery => ?_⟩
      exact forall_places_succ.2 ⟨hhere, h.2 hevery⟩
    · exact silently_pure fun hfalse => absurd hfalse Bool.false_ne_true

theorem silently_findM? {α : Type} {f : α → Traced Bool} {Q : α → Prop} {xs : List α}
    (h : ∀ x ∈ xs, (f x).Silently fun found => found = true → Q x) :
    (xs.findM? f).Silently fun found => ∀ x, found = some x → Q x := by
  induction xs with
  | nil => exact silently_pure nofun
  | cons x xs ih =>
    obtain ⟨hx, hrest⟩ := List.forall_mem_cons.1 h
    rw [List.findM?]
    refine hx.bind fun found hfound => ?_
    cases found with
    | true =>
      refine silently_pure fun y hy => ?_
      cases hy
      exact hfound rfl
    | false => exact ih hrest

theorem silently_findTopClassRuns (s : FreeLists) (size count align : Nat) :
    (s.findTopClassRuns size count align).Silently fun found =>
      ∀ first, found = some first → ∀ i < count, s.RoomAt size (first + i * 2 ^ s.top) := by
  unfold findTopClassRuns
  refine (silently_topClass s).bind fun top htop => ?_
  subst htop
  refine (silently_list s s.top).bind fun pieces hpieces => ?_
  obtain ⟨-, rfl⟩ := hpieces
  refine (Word.silently_bit _ _).bind fun stride hstride => ?_
  subst hstride
  have heach : ∀ e ∈ (s.listOf s.top).toList, (if align = 0 then Traced.fault .remainderByZero
      else if e.1 % align = 0 then hasRoomEvery (s.listOf s.top) size e.1 (2 ^ s.top) count 0
      else return false : Traced Bool).Silently fun found =>
        found = true → ∀ i < count, s.RoomAt size (e.1 + i * 2 ^ s.top) := by
    intro e _
    split
    · exact ensures_fault _ _
    · split
      · simpa only [Nat.zero_add] using silently_hasRoomEvery s size e.1 (2 ^ s.top) count 0
      · exact silently_pure nofun
  refine (silently_findM? heach).bind fun found hfound => silently_pure fun first hfirst => ?_
  obtain ⟨e, rfl, rfl⟩ := Option.map_eq_some_iff.1 hfirst
  exact hfound e rfl

end FreeLists

end AlignedRuns
