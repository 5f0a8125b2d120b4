import AlignedRuns.IndexMap
import AlignedRuns.Split
set_option autoImplicit false

namespace AlignedRuns

structure FreeLists where
  lists : List IndexMap
deriving DecidableEq

namespace FreeLists

def create (classes : Nat) : Traced FreeLists := do
  Traced.require (1 ≤ classes ∧ classes ≤ maxClasses) .classCount
  return ⟨List.replicate classes .empty⟩

def count (s : FreeLists) : Nat := s.lists.length

def top (s : FreeLists) : Nat := s.count - 1

/-- The highest class, worked out in words: there is one only if there is a list. -/
def topClass (s : FreeLists) : Traced Nat := Word.sub s.count 1

def list (s : FreeLists) (c : Nat) : Traced IndexMap :=
  match s.lists[c]? with
  | some pieces => pure pieces
  | none => Traced.fault (.noSuchClass s.count c)

def setList (s : FreeLists) (c : Nat) (pieces : IndexMap) : FreeLists := ⟨s.lists.set c pieces⟩

def get? (s : FreeLists) (c offset : Nat) : Option Nat := s.lists[c]?.bind (·.get? offset)

def size (s : FreeLists) : Nat := s.lists.foldr (fun pieces n => pieces.size + n) 0

def toList (s : FreeLists) : List Piece :=
  s.lists.zipIdx.flatMap fun (pieces, c) => pieces.toList.map fun (offset, len) => ⟨c, offset, len⟩

def store (s : FreeLists) (p : Piece) : Traced FreeLists := do
  Traced.record (.stored p)
  let pieces ← s.list p.sizeClass
  match pieces.get? p.offset with
  | some old => Traced.inconsistent (.pieceExists p.sizeClass p.offset old)
  | none => return s.setList p.sizeClass (pieces.insert p.offset p.len)

def drop (s : FreeLists) (p : Piece) : Traced FreeLists := do
  Traced.record (.dropped p)
  let pieces ← s.list p.sizeClass
  match pieces.get? p.offset with
  | none => Traced.inconsistent (.pieceMissing p.sizeClass p.offset)
  | some stored =>
    if stored = p.len then return s.setList p.sizeClass (pieces.erase p.offset)
    else Traced.inconsistent (.pieceLength p.sizeClass p.offset stored p.len)

def changeRun (change : FreeLists → Piece → Traced FreeLists) (s : FreeLists) (offset len : Nat) :
    Traced FreeLists := do
  let top ← s.topClass
  Split.walk change top offset len s

def insertRun (s : FreeLists) (offset len : Nat) : Traced FreeLists := s.changeRun store offset len

def removeRun (s : FreeLists) (offset len : Nat) : Traced FreeLists := s.changeRun drop offset len

def takeFirstFit (s : FreeLists) (c size : Nat) : Traced (Option (Nat × Nat) × FreeLists) := do
  let pieces ← s.list c
  match pieces.toList.find? (size ≤ ·.2) with
  | some (offset, len) => return (some (offset, len), s.setList c (pieces.erase offset))
  | none => return (none, s)

def takeFirstFitAmong (s : FreeLists) (size : Nat) :
    (classes : List Nat) → Traced (Option (Nat × Nat) × FreeLists)
  | [] => return (none, s)
  | c :: classes => do
    match ← s.takeFirstFit c size with
    | (some piece, s) => return (some piece, s)
    | (none, s) => s.takeFirstFitAmong size classes

def takeFit (s : FreeLists) (c size : Nat) : Traced (Option (Nat × Nat) × FreeLists) :=
  s.takeFirstFitAmong size (List.range' c (s.count - c))

def take (s : FreeLists) (c offset : Nat) : Traced (Option Nat × FreeLists) := do
  let pieces ← s.list c
  return (pieces.get? offset, s.setList c (pieces.erase offset))

def hasRoom (pieces : IndexMap) (size place : Nat) : Bool :=
  match pieces.get? place with
  | some len => size ≤ len
  | none => false

def hasRoomEvery (pieces : IndexMap) (size offset stride : Nat) :
    (remaining i : Nat) → Traced Bool
  | 0, _ => return true
  | remaining + 1, i => do
    let step ← Word.mul wideBits i stride
    let place ← Word.add wideBits offset step
    if place < 2 ^ indexBits ∧ hasRoom pieces size place then
      hasRoomEvery pieces size offset stride remaining (i + 1)
    else return false

/-- The lowest top class piece at a multiple of `align` that starts `count` pieces, spaced one top
class size apart, each with room for `size` indices. -/
def findTopClassRuns (s : FreeLists) (size count align : Nat) : Traced (Option Nat) := do
  let top ← s.topClass
  let pieces ← s.list top
  let stride ← Word.bit wideBits top
  let found ← pieces.toList.findM? fun (offset, _) => do
    if align = 0 then Traced.fault .remainderByZero
    else if offset % align = 0 then hasRoomEvery pieces size offset stride count 0
    else return false
  return found.map (·.1)

theorem topClass_eq {s : FreeLists} (h : 0 < s.count) : s.topClass = pure s.top := Word.sub_of_le h

theorem changeRun_eq_foldlM {s : FreeLists} {offset len : Nat} (hcount : 0 < s.count)
    (htop : s.top < indexBits) (h : offset + len < 2 ^ indexBits)
    (change : FreeLists → Piece → Traced FreeLists) :
    s.changeRun change offset len = (Split.pieces s.top offset len).foldlM change s := by
  rw [changeRun, topClass_eq hcount, pure_bind, Split.walk_eq_foldlM_of_lt change htop h]

theorem mem_toList_iff {s : FreeLists} {p : Piece} :
    p ∈ s.toList ↔ s.get? p.sizeClass p.offset = some p.len := by
  obtain ⟨c, offset, len⟩ := p
  simp only [toList, List.mem_flatMap, List.mem_zipIdx_iff_getElem?, List.mem_map, get?,
    Option.bind_eq_some_iff]
  constructor
  · rintro ⟨⟨pieces, d⟩, hd, ⟨o, l⟩, he, heq⟩
    obtain ⟨rfl, rfl, rfl⟩ := Piece.mk.inj heq
    exact ⟨pieces, hd, IndexMap.mem_toList_iff.1 he⟩
  · rintro ⟨pieces, hc, hget⟩
    exact ⟨(pieces, c), hc, (offset, len), IndexMap.mem_toList_iff.2 hget, rfl⟩

@[simp] theorem count_setList (s : FreeLists) (c : Nat) (pieces : IndexMap) :
    (s.setList c pieces).count = s.count := by
  simp [setList, count]

theorem get?_setList {s : FreeLists} {c : Nat} (h : c < s.count) (pieces : IndexMap)
    (d offset : Nat) :
    (s.setList c pieces).get? d offset = if c = d then pieces.get? offset else s.get? d offset := by
  simp only [get?, setList, List.getElem?_set]
  split
  · simp [show c < s.lists.length from h]
  · rfl

theorem list_eq_pure {s : FreeLists} {c : Nat} {pieces : IndexMap} (h : s.lists[c]? = some pieces) :
    s.list c = pure pieces := by
  simp only [list, h]

theorem ext_get? {s t : FreeLists} (hcount : s.count = t.count)
    (h : ∀ c offset, s.get? c offset = t.get? c offset) : s = t := by
  obtain ⟨lists⟩ := s
  obtain ⟨others⟩ := t
  simp only [count] at hcount
  refine congrArg mk (List.ext_getElem hcount fun c hc hc' => IndexMap.ext_get? fun i => ?_)
  simpa [get?, List.getElem?_eq_getElem, hc, hc'] using h c i

end FreeLists

end AlignedRuns
