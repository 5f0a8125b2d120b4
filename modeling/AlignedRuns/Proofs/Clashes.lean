import AlignedRuns.Proofs.Lines
set_option autoImplicit false

/-!
# Where a run clashes

A run goes into the free lists or comes out of them one piece after another, and the first piece
that cannot follow stops it. No two pieces of a run start at one index, so what the operation has
changed is never at the place of a piece to come: whether it stops, and where, is seen in the lists
as they were before it. This holds of all free lists, whatever they are filled with.
-/

namespace AlignedRuns

namespace Split

theorem nodup_offsets (top offset len : Nat) :
    ((pieces top offset len).map Piece.offset).Nodup := by
  refine List.pairwise_map.2 ((ordered_pieces top offset len).imp_of_mem ?_)
  intro p q hp _ hle heq
  have := (fits_of_mem_pieces hp).len_pos
  unfold Piece.stop at hle
  omega

end Split

namespace Traced

variable {α β : Type}

theorem emit_fault_bind (events : Journal) (e : Fault) (f : α → Traced β) :
    ((do emit events; fault e : Traced α) >>= f) = (do emit events; fault e) := by
  rw [bind_assoc]
  simp only [fault_bind]

end Traced

namespace FreeLists
open Traced

def held (s : FreeLists) (p : Piece) : Option Nat := s.get? p.sizeClass p.offset

def storeClash? (p : Piece) (held : Option Nat) : Option Inconsistency :=
  held.map fun old => .pieceExists p.sizeClass p.offset old

def dropClash? (p : Piece) : Option Nat → Option Inconsistency
  | none => some (.pieceMissing p.sizeClass p.offset)
  | some stored =>
    if stored = p.len then none else some (.pieceLength p.sizeClass p.offset stored p.len)

/-- A step writes down its event before all else. What speaks against it stops it; otherwise it sets
what is held at the place of its piece and leaves all other places. -/
structure Steps (f : FreeLists → Piece → Traced FreeLists) (event : Piece → Event)
    (clash? : Piece → Option Nat → Option Inconsistency) (left : Piece → Option Nat) : Prop where
  stops {s : FreeLists} {p : Piece} {i : Inconsistency} (hclass : p.sizeClass < s.count)
    (hclash : clash? p (s.held p) = some i) :
    f s p = (do emit [event p, .violated i]; fault (.inconsistent i))
  goes {s : FreeLists} {p : Piece} (hclass : p.sizeClass < s.count)
    (hclear : clash? p (s.held p) = none) :
    ∃ t : FreeLists, f s p = (do emit [event p]; pure t) ∧ t.count = s.count ∧
      ∀ c offset, t.get? c offset =
        if p.sizeClass = c ∧ p.offset = offset then left p else s.get? c offset

theorem inconsistent_eq_emit {α : Type} (i : Inconsistency) :
    (inconsistent i : Traced α) = (do emit [.violated i]; fault (.inconsistent i)) := rfl

theorem store_steps : Steps store .stored storeClash? fun p => some p.len where
  stops {s p i} hclass hclash := by
    obtain ⟨old, hheld, rfl⟩ := Option.map_eq_some_iff.1 hclash
    rw [held, get?_eq_listOf] at hheld
    simp only [store, list_eq_listOf hclass, pure_bind, hheld, record_eq_emit,
      inconsistent_eq_emit, emit_bind_emit]
    rfl
  goes {s p} hclass hclear :=
    ⟨s.put p, store_of_free hclass (Option.map_eq_none_iff.1 hclear), count_put s p,
      get?_put hclass⟩

theorem drop_steps : Steps drop .dropped dropClash? fun _ => none where
  stops {s p i} hclass hclash := by
    cases hheld : s.held p with
    | none =>
      rw [hheld] at hclash
      obtain rfl := Option.some.inj hclash
      rw [held, get?_eq_listOf] at hheld
      simp only [drop, list_eq_listOf hclass, pure_bind, hheld, record_eq_emit,
        inconsistent_eq_emit, emit_bind_emit]
      rfl
    | some stored =>
      rw [hheld, dropClash?] at hclash
      split at hclash
      · cases hclash
      · rename_i hlen
        obtain rfl := Option.some.inj hclash
        rw [held, get?_eq_listOf] at hheld
        simp only [drop, list_eq_listOf hclass, pure_bind, hheld, record_eq_emit, if_neg hlen,
          inconsistent_eq_emit, emit_bind_emit]
        rfl
  goes {s p} hclass hclear := by
    cases hheld : s.held p with
    | none =>
      rw [hheld] at hclear
      cases hclear
    | some stored =>
      rw [hheld, dropClash?] at hclear
      split at hclear
      · rename_i hlen
        subst hlen
        exact ⟨s.remove p, drop_of_mem (mem_toList_iff.2 hheld), count_remove s p,
          get?_remove hclass⟩
      · cases hclear

section Walks
variable {f : FreeLists → Piece → Traced FreeLists} {event : Piece → Event}
  {clash? : Piece → Option Nat → Option Inconsistency} {left : Piece → Option Nat}
  {s : FreeLists} {ps front back : List Piece} {p : Piece} {i : Inconsistency}

/-- Where nothing speaks against any of the pieces, all of them follow, and nothing else changes. -/
theorem Steps.foldlM_goes (h : Steps f event clash? left) (hclass : ∀ p ∈ ps, p.sizeClass < s.count)
    (hplaces : (ps.map Piece.offset).Nodup) (hclear : ∀ p ∈ ps, clash? p (s.held p) = none) :
    ∃ t : FreeLists, ps.foldlM f s = (do emit (ps.map event); pure t) ∧ t.count = s.count ∧
      (∀ p ∈ ps, t.held p = left p) ∧
      ∀ c offset, (∀ p ∈ ps, ¬(p.sizeClass = c ∧ p.offset = offset)) →
        t.get? c offset = s.get? c offset := by
  induction ps generalizing s with
  | nil => exact ⟨s, rfl, rfl, nofun, fun _ _ _ => rfl⟩
  | cons p ps ih =>
    obtain ⟨hpclass, hclasses⟩ := List.forall_mem_cons.1 hclass
    obtain ⟨hpclear, hothers⟩ := List.forall_mem_cons.1 hclear
    rw [List.map_cons, List.nodup_cons] at hplaces
    obtain ⟨t, hhere, hcount, hget⟩ := h.goes hpclass hpclear
    have hne : ∀ q ∈ ps, ¬(p.sizeClass = q.sizeClass ∧ p.offset = q.offset) := by
      rintro q hq ⟨-, heq⟩
      exact hplaces.1 (heq ▸ List.mem_map_of_mem hq)
    have hkept : ∀ q ∈ ps, t.held q = s.held q := fun q hq => by
      rw [held, hget, if_neg (hne q hq), held]
    obtain ⟨u, hrest, hcount', hleft, hother⟩ := ih (fun q hq => hcount ▸ hclasses q hq) hplaces.2
      fun q hq => by rw [hkept q hq]; exact hothers q hq
    refine ⟨u, ?_, hcount'.trans hcount, List.forall_mem_cons.2 ⟨?_, hleft⟩, ?_⟩
    · rw [List.foldlM_cons, hhere, emit_pure_bind, hrest, emit_bind_emit]
      rfl
    · have hlast := hother p.sizeClass p.offset fun q hq heq => hne q hq ⟨heq.1.symm, heq.2.symm⟩
      rw [held, hlast, hget, if_pos ⟨rfl, rfl⟩]
    · intro c offset hnone
      obtain ⟨hp, hps⟩ := List.forall_mem_cons.1 hnone
      rw [hother c offset hps, hget, if_neg hp]

/-- The pieces before the first that something speaks against do not reach its place, so it is
stopped by what was there before. -/
theorem Steps.foldlM_stops (h : Steps f event clash? left)
    (hclass : ∀ q ∈ front ++ p :: back, q.sizeClass < s.count)
    (hplaces : ((front ++ p :: back).map Piece.offset).Nodup)
    (hfront : ∀ q ∈ front, clash? q (s.held q) = none) (hp : clash? p (s.held p) = some i) :
    (front ++ p :: back).foldlM f s =
      (do emit ((front ++ [p]).map event ++ [.violated i]); fault (.inconsistent i)) := by
  obtain ⟨hclasses, hrest⟩ := List.forall_mem_append.1 hclass
  rw [List.map_append, List.nodup_append] at hplaces
  obtain ⟨t, hrun, hcount, -, hother⟩ := h.foldlM_goes hclasses hplaces.1 hfront
  have hkept : t.held p = s.held p := by
    refine hother _ _ fun q hq heq => ?_
    exact hplaces.2.2 _ (List.mem_map_of_mem hq) _ (List.mem_map_of_mem List.mem_cons_self) heq.2
  have hpclass : p.sizeClass < t.count := hcount ▸ hrest p List.mem_cons_self
  rw [List.foldlM_append, hrun, emit_pure_bind, List.foldlM_cons,
    h.stops hpclass (hkept ▸ hp), emit_fault_bind, emit_bind_emit]
  rw [List.map_append, List.append_assoc]
  rfl

end Walks

/-- How an operation ends that changes the lists for one piece after another. The first piece that
something speaks against, in the lists as they were before, stops it with a text; the journal has
the lines of the pieces up to it and then the text. If there is no such piece, just what is held at
the places of the pieces is changed. -/
structure EndsAtClash (s : FreeLists) (ps : List Piece) (verb : String)
    (clash? : Piece → Option Nat → Option String) (left : Piece → Option Nat)
    (run : Outcome FreeLists) : Prop where
  fault_iff : (∃ f, run.result = .error f) ↔ ∃ p ∈ ps, (clash? p (s.held p)).isSome
  stopped : ∀ front p back text, ps = front ++ p :: back →
    (∀ q ∈ front, clash? q (s.held q) = none) → clash? p (s.held p) = some text →
    (∃ f, run.result = .error f ∧ f.message = text) ∧
      run.journal.lines .trace = (front ++ [p]).map (Event.changeLine verb) ++
        ["ERROR power2 allocator consistency violation: " ++ text]
  finished : (∀ p ∈ ps, clash? p (s.held p) = none) →
    ∃ t : FreeLists, run.result = .ok t ∧
      run.journal.lines .trace = ps.map (Event.changeLine verb) ∧ t.count = s.count ∧
      (∀ p ∈ ps, t.held p = left p) ∧
      ∀ c offset, (∀ p ∈ ps, ¬(p.sizeClass = c ∧ p.offset = offset)) →
        t.get? c offset = s.get? c offset

section Runs
variable {f : FreeLists → Piece → Traced FreeLists} {event : Piece → Event}
  {clash? : Piece → Option Nat → Option Inconsistency} {left : Piece → Option Nat}
  {s : FreeLists} {offset len : Nat}

theorem class_lt_of_mem_pieces (hpos : 0 < s.count) {p : Piece}
    (hp : p ∈ Split.pieces s.top offset len) : p.sizeClass < s.count := by
  have hle : p.sizeClass ≤ s.count - 1 := (Split.fits_of_mem_pieces hp).class_le
  omega

theorem Steps.changeRun_goes (h : Steps f event clash? left) (hpos : 0 < s.count)
    (htop : s.top < indexBits) (hrun : offset + len < 2 ^ indexBits)
    (hclear : ∀ p ∈ Split.pieces s.top offset len, clash? p (s.held p) = none) :
    ∃ t : FreeLists, (s.changeRun f offset len).outcome =
        ⟨.ok t, (Split.pieces s.top offset len).map event⟩ ∧ t.count = s.count ∧
      (∀ p ∈ Split.pieces s.top offset len, t.held p = left p) ∧
      ∀ c i, (∀ p ∈ Split.pieces s.top offset len, ¬(p.sizeClass = c ∧ p.offset = i)) →
        t.get? c i = s.get? c i := by
  obtain ⟨t, hfold, hrest⟩ := h.foldlM_goes (fun p hp => class_lt_of_mem_pieces hpos hp)
    (Split.nodup_offsets s.top offset len) hclear
  refine ⟨t, ?_, hrest⟩
  rw [changeRun_eq_foldlM hpos htop hrun, hfold, outcome_emit_pure]

theorem Steps.changeRun_stops (h : Steps f event clash? left) (hpos : 0 < s.count)
    (htop : s.top < indexBits) (hrun : offset + len < 2 ^ indexBits) {front back : List Piece}
    {p : Piece} {i : Inconsistency} (hcut : Split.pieces s.top offset len = front ++ p :: back)
    (hfront : ∀ q ∈ front, clash? q (s.held q) = none) (hp : clash? p (s.held p) = some i) :
    (s.changeRun f offset len).outcome =
      ⟨.error (.inconsistent i), (front ++ [p]).map event ++ [.violated i]⟩ := by
  have hplaces := Split.nodup_offsets s.top offset len
  have hclass := fun q (hq : q ∈ Split.pieces s.top offset len) => class_lt_of_mem_pieces hpos hq
  rw [hcut] at hplaces hclass
  rw [changeRun_eq_foldlM hpos htop hrun, hcut, h.foldlM_stops hclass hplaces hfront hp,
    outcome_emit_fault]

theorem Steps.changeRun_fault_iff (h : Steps f event clash? left) (hpos : 0 < s.count)
    (htop : s.top < indexBits) (hrun : offset + len < 2 ^ indexBits) :
    (∃ e, (s.changeRun f offset len).outcome.result = .error e) ↔
      ∃ p ∈ Split.pieces s.top offset len, (clash? p (s.held p)).isSome := by
  constructor
  · rintro ⟨e, he⟩
    by_contra hnone
    simp only [not_exists, not_and, Option.not_isSome_iff_eq_none] at hnone
    obtain ⟨t, hok, -⟩ := h.changeRun_goes hpos htop hrun hnone
    rw [hok] at he
    cases he
  · rintro ⟨q, hq, hclash⟩
    -- the first piece that something speaks against is the one that stops the change
    have hfound : ((Split.pieces s.top offset len).find?
        fun p => (clash? p (s.held p)).isSome).isSome := List.find?_isSome.2 ⟨q, hq, hclash⟩
    obtain ⟨p, hfirst⟩ := Option.isSome_iff_exists.1 hfound
    obtain ⟨hp, front, back, hcut, hfront⟩ := List.find?_eq_some_iff_append.1 hfirst
    obtain ⟨i, hi⟩ := Option.isSome_iff_exists.1 hp
    have hclear : ∀ r ∈ front, clash? r (s.held r) = none := fun r hr => by
      simpa using hfront r hr
    rw [h.changeRun_stops hpos htop hrun hcut hclear hi]
    exact ⟨_, rfl⟩

theorem line_violated (i : Inconsistency) :
    (Event.violated i).line = "ERROR power2 allocator consistency violation: " ++ i.message := by
  have hlabel : "ERROR" ++ " " ++ "power2 allocator consistency violation: " =
      "ERROR power2 allocator consistency violation: " := by decide
  rw [← hlabel]
  change "ERROR" ++ " " ++ ("power2 allocator consistency violation: " ++ i.message) = _
  simp only [String.append_assoc]

theorem Steps.endsAtClash (h : Steps f event clash? left) {verb : String}
    (hline : ∀ p, (event p).line = Event.changeLine verb p) (hpos : 0 < s.count)
    (htop : s.top < indexBits) (hrun : offset + len < 2 ^ indexBits) :
    s.EndsAtClash (Split.pieces s.top offset len) verb
      (fun p held => (clash? p held).map Inconsistency.message) left
      (s.changeRun f offset len).outcome where
  fault_iff := by
    simp only [Option.isSome_map]
    exact h.changeRun_fault_iff hpos htop hrun
  stopped front p back text hcut hfront hp := by
    obtain ⟨i, hi, rfl⟩ := Option.map_eq_some_iff.1 hp
    have hclear := fun q hq => Option.map_eq_none_iff.1 (hfront q hq)
    rw [h.changeRun_stops hpos htop hrun hcut hclear hi]
    refine ⟨⟨_, rfl, rfl⟩, ?_⟩
    rw [Journal.lines_trace, List.map_append, List.map_map]
    exact congr (congrArg _ (List.map_congr_left fun q _ => hline q))
      (congrArg (fun line => [line]) (line_violated i))
  finished hclear := by
    obtain ⟨t, hok, hrest⟩ := h.changeRun_goes hpos htop hrun fun p hp =>
      Option.map_eq_none_iff.1 (hclear p hp)
    rw [hok]
    refine ⟨t, rfl, ?_, hrest⟩
    rw [Journal.lines_trace, List.map_map]
    exact List.map_congr_left fun p _ => hline p

theorem message_storeClash? (p : Piece) (held : Option Nat) :
    (storeClash? p held).map Inconsistency.message = held.map fun old =>
      s!"free list {p.sizeClass} already holds a piece at {p.offset} (len {old})" :=
  Option.map_map _ _ held

theorem message_dropClash? (p : Piece) (held : Option Nat) :
    (dropClash? p held).map Inconsistency.message = match held with
      | none => some s!"free list {p.sizeClass} has no piece at {p.offset}"
      | some stored => if stored = p.len then none else
        some s!"free list {p.sizeClass} piece at {p.offset} has len {stored}, expected {p.len}"
    := by
  cases held with
  | none => rfl
  | some stored =>
    by_cases hlen : stored = p.len
    · simp only [dropClash?, if_pos hlen]
      rfl
    · simp only [dropClash?, if_neg hlen]
      rfl

/-- Of free lists with any contents: a run goes in or comes out unless one of its pieces clashes
with what they hold before, and the first that does stops it. -/
theorem stops_at_first_clash (hpos : 1 ≤ s.count) (hcount : s.count ≤ maxClasses)
    (hrun : offset + len < 2 ^ indexBits) :
    ∃ ps, (Split.verified s.top offset len).outcome.result = .ok ps ∧
      s.EndsAtClash ps "insert"
        (fun p held => held.map fun old =>
          s!"free list {p.sizeClass} already holds a piece at {p.offset} (len {old})")
        (fun p => some p.len) (s.insertRun offset len).outcome ∧
      s.EndsAtClash ps "remove"
        (fun p held => match held with
          | none => some s!"free list {p.sizeClass} has no piece at {p.offset}"
          | some stored => if stored = p.len then none else
            some s!"free list {p.sizeClass} piece at {p.offset} has len {stored}, expected {p.len}")
        (fun _ => none) (s.removeRun offset len).outcome := by
  have htop := top_lt_of_count_le hpos hcount
  have hinsert := store_steps.endsAtClash Event.line_stored hpos htop hrun
  have hremove := drop_steps.endsAtClash Event.line_dropped hpos htop hrun
  simp only [message_storeClash?] at hinsert
  simp only [message_dropClash?] at hremove
  exact ⟨_, Split.result_verified htop hrun, hinsert, hremove⟩

theorem stops_at_first_clash_short_piece :
    ∃ s : FreeLists, s.toList = [⟨0, 5, 1⟩, ⟨1, 6, 1⟩] ∧
      (∃ f, (s.insertRun 5 14).outcome.result = .error f ∧
        f.message = "free list 0 already holds a piece at 5 (len 1)") ∧
      (∃ f, (s.removeRun 5 14).outcome.result = .error f ∧
        f.message = "free list 1 piece at 6 has len 1, expected 2") ∧
      (s.removeRun 5 14).outcome.journal.lines .trace =
        ["TRACE free list 0: remove 5+1", "TRACE free list 1: remove 6+2",
          "ERROR power2 allocator consistency violation: " ++
            "free list 1 piece at 6 has len 1, expected 2"] := by
  let s : FreeLists := .ofPieces 3 [⟨0, 5, 1⟩, ⟨1, 6, 1⟩]
  have hsplit : Split.pieces 2 5 14 =
      ⟨0, 5, 1⟩ :: ⟨1, 6, 2⟩ :: [⟨2, 8, 4⟩, ⟨2, 12, 4⟩, ⟨2, 16, 3⟩] := by decide +kernel
  have hrun : 5 + 14 < 2 ^ indexBits := by decide
  obtain ⟨ps, hps, hinsert, hremove⟩ :=
    stops_at_first_clash (s := s) (by decide) (by decide) hrun
  cases hps.symm.trans (Split.result_verified (by decide) (by decide))
  obtain ⟨hexists, -⟩ := hinsert.stopped [] _ _ _ hsplit nofun (by rfl)
  obtain ⟨hshort, hlines⟩ := hremove.stopped [⟨0, 5, 1⟩] _ _ _ hsplit (by decide +kernel) (by rfl)
  exact ⟨s, by decide +kernel, hexists, hshort, hlines⟩

end Runs

end FreeLists

end AlignedRuns
