import AlignedRuns.Proofs.Replay
import Mathlib.Data.List.TakeDrop
set_option autoImplicit false

namespace AlignedRuns

/-- Reads the decimal number a text begins with, and gives it with what comes after it. -/
def number? (text : List Char) : Option (Nat × List Char) :=
  let (digits, rest) := text.span Char.isDigit
  if digits = [] then none else some (Nat.ofDigitChars 10 digits 0, rest)

/-- The severity that a line names before its first blank. -/
def Severity.ofLine? (line : String) : Option Severity :=
  [error, warn, info, debug, trace].find? fun severity =>
    (severity.label ++ " ").toList.isPrefixOf line.toList

namespace Event

def pieceIn? (verb : String) (line : String) : Option Piece := do
  let text ← "TRACE free list ".toList.isPrefixOf? line.toList
  let (c, text) ← number? text
  let text ← (": " ++ verb ++ " ").toList.isPrefixOf? text
  let (offset, text) ← number? text
  let text ← "+".toList.isPrefixOf? text
  let (len, text) ← number? text
  if text = [] then some ⟨c, offset, len⟩ else none

def ofLine? (line : String) : Option Event :=
  (stored <$> pieceIn? "insert" line) <|> (dropped <$> pieceIn? "remove" line)

/-- The start and the length of the piece that a run was allocated from, as the line about the
allocation has them after its "from". -/
def pieceTaken? (line : String) : Option (Nat × Nat) := do
  let text ← "DEBUG ".toList.isPrefixOf? line.toList
  let text ← "allocate ".toList.isPrefixOf? text
  let (_, text) ← number? text
  let text ← ": ".toList.isPrefixOf? text
  let (_, text) ← number? text
  let text ← " (from ".toList.isPrefixOf? text
  let (start, text) ← number? text
  let text ← "+".toList.isPrefixOf? text
  let (len, text) ← number? text
  if text = ")".toList then some (start, len) else none

end Event

theorem number?_append (n : Nat) {rest : List Char} (h : ∀ c ∈ rest.head?, c.isDigit = false) :
    number? ((toString n).toList ++ rest) = some (n, rest) := by
  rw [Nat.toString_eq_ofList_toDigits, String.toList_ofList]
  have hdigits : ∀ c ∈ Nat.toDigits 10 n, c.isDigit = true := fun c hc =>
    Nat.isDigit_of_mem_toDigits (by decide) (by decide) hc
  have hrest : rest.takeWhile Char.isDigit = [] ∧ rest.dropWhile Char.isDigit = rest := by
    cases rest with
    | nil => exact ⟨rfl, rfl⟩
    | cons c rest =>
      have hc : ¬c.isDigit = true := by simp [h c rfl]
      exact ⟨List.takeWhile_cons_of_neg hc, List.dropWhile_cons_of_neg hc⟩
  have hspan : (Nat.toDigits 10 n ++ rest).span Char.isDigit = (Nat.toDigits 10 n, rest) := by
    rw [List.span_eq_takeWhile_dropWhile, List.takeWhile_append_of_pos hdigits,
      List.dropWhile_append_of_pos hdigits, hrest.1, hrest.2, List.append_nil]
  rw [number?, hspan]
  simp only [if_neg Nat.toDigits_ne_nil, Nat.ofDigitChars_ten_toDigits]

theorem isPrefixOf?_append (word rest : List Char) : word.isPrefixOf? (word ++ rest) = some rest :=
  List.isPrefixOf?_eq_some_iff_append_eq.2 rfl

namespace Event

theorem severity_line (e : Event) : Severity.ofLine? e.line = some e.severity := by
  have hline : e.line.toList = (e.severity.label ++ " ").toList ++ e.message.toList :=
    String.toList_append
  rw [Severity.ofLine?, hline]
  generalize e.message.toList = message
  cases e.severity <;> rfl

theorem line_of_debug {e : Event} (h : e.severity = .debug) : e.line = "DEBUG " ++ e.message := by
  have hlabel : Severity.label .debug ++ " " = "DEBUG " := by decide
  rw [line, h, hlabel]

/-- Reading gives back what was written, with whatever numbers. -/
theorem pieceTaken?_allocate (size offset start len : Nat) :
    pieceTaken? ("DEBUG " ++ s!"allocate {size}: {offset} (from {start}+{len})") =
      some (start, len) := by
  let last := (toString len).toList ++ ")".toList
  let first := (toString start).toList ++ ("+".toList ++ last)
  let place := (toString offset).toList ++ (" (from ".toList ++ first)
  let asked := (toString size).toList ++ (": ".toList ++ place)
  have hline : ("DEBUG " ++ s!"allocate {size}: {offset} (from {start}+{len})").toList =
      "DEBUG ".toList ++ ("allocate ".toList ++ asked) := by
    change ("DEBUG " ++ ("allocate " ++ toString size ++ ": " ++ toString offset ++ " (from " ++
      toString start ++ "+" ++ toString len ++ ")")).toList = _
    simp only [String.toList_append, List.append_assoc, asked, place, first, last]
  have hsize : number? asked = some (size, ": ".toList ++ place) := number?_append _ (by simp)
  have hoffset : number? place = some (offset, " (from ".toList ++ first) :=
    number?_append _ (by simp)
  have hstart : number? first = some (start, "+".toList ++ last) := number?_append _ (by simp)
  have hlen : number? last = some (len, ")".toList) := number?_append _ (by simp)
  simp only [pieceTaken?, hline, isPrefixOf?_append, hsize, hoffset, hstart, hlen,
    Option.bind_eq_bind, Option.bind_some, if_true]

def changeLine (verb : String) (p : Piece) : String :=
  "TRACE free list " ++ (toString p.sizeClass ++ (": " ++ verb ++ " " ++
    (toString p.offset ++ ("+" ++ toString p.len))))

-- The equations Lean makes for `changeLine` evaluate its literals; this one does not.
theorem changeLine_eq (verb : String) (p : Piece) : changeLine verb p =
    "TRACE free list " ++ (toString p.sizeClass ++ (": " ++ verb ++ " " ++
      (toString p.offset ++ ("+" ++ toString p.len)))) := rfl

theorem line_stored (p : Piece) : (stored p).line = changeLine "insert" p := by
  have hlabel : "TRACE" ++ " " ++ "free list " = "TRACE free list " := by decide
  have hverb : ": " ++ "insert" ++ " " = ": insert " := by decide
  rw [changeLine_eq, hverb, ← hlabel]
  change "TRACE" ++ " " ++ ("free list " ++ toString p.sizeClass ++ ": insert " ++
    toString p.offset ++ "+" ++ toString p.len) = _
  simp only [String.append_assoc]

theorem line_dropped (p : Piece) : (dropped p).line = changeLine "remove" p := by
  have hlabel : "TRACE" ++ " " ++ "free list " = "TRACE free list " := by decide
  have hverb : ": " ++ "remove" ++ " " = ": remove " := by decide
  rw [changeLine_eq, hverb, ← hlabel]
  change "TRACE" ++ " " ++ ("free list " ++ toString p.sizeClass ++ ": remove " ++
    toString p.offset ++ "+" ++ toString p.len) = _
  simp only [String.append_assoc]

theorem pieceIn?_changeLine (verb : String) (p : Piece) :
    pieceIn? verb (changeLine verb p) = some p := by
  let len := (toString p.len).toList ++ []
  let place := (toString p.offset).toList ++ ("+".toList ++ len)
  let change := (toString p.sizeClass).toList ++ ((": " ++ verb ++ " ").toList ++ place)
  have hline : (changeLine verb p).toList = "TRACE free list ".toList ++ change := by
    simp only [changeLine_eq, String.toList_append, List.append_nil, List.append_assoc, change,
      place, len]
  have hclass : number? change = some (p.sizeClass, (": " ++ verb ++ " ").toList ++ place) :=
    number?_append _ (by simp)
  have hoffset : number? place = some (p.offset, "+".toList ++ len) := number?_append _ (by simp)
  have hlen : number? len = some (p.len, []) := number?_append _ nofun
  simp only [pieceIn?, hline, isPrefixOf?_append, hclass, hoffset, hlen, Option.bind_eq_bind,
    Option.bind_some, if_true]

/-- A line that says one thing cannot be read as if it said the other. -/
theorem pieceIn?_insert_remove (p : Piece) : pieceIn? "insert" (changeLine "remove" p) = none := by
  let place := toString p.offset ++ ("+" ++ toString p.len)
  have hline : (changeLine "remove" p).toList = "TRACE free list ".toList ++
      ((toString p.sizeClass).toList ++ (": " ++ "remove" ++ " " ++ place).toList) := by
    simp only [changeLine_eq, String.toList_append, List.append_assoc, place]
  have hclass : number?
      ((toString p.sizeClass).toList ++ (": " ++ "remove" ++ " " ++ place).toList) =
        some (p.sizeClass, (": " ++ "remove" ++ " " ++ place).toList) := number?_append _ (by simp)
  have hrest : (": " ++ "remove" ++ " " ++ place).toList =
      (": " ++ "remove" ++ " ").toList ++ place.toList := String.toList_append
  have hverb : (": " ++ "insert" ++ " ").toList.isPrefixOf?
      (": " ++ "remove" ++ " " ++ place).toList = none := by
    rw [hrest]
    rfl
  simp only [pieceIn?, hline, isPrefixOf?_append, hclass, hverb, Option.bind_eq_bind,
    Option.bind_some, Option.bind_none]

theorem ofLine?_stored (p : Piece) : ofLine? (stored p).line = some (stored p) := by
  rw [ofLine?, line_stored, pieceIn?_changeLine]
  rfl

theorem ofLine?_dropped (p : Piece) : ofLine? (dropped p).line = some (dropped p) := by
  rw [ofLine?, line_dropped, pieceIn?_insert_remove, pieceIn?_changeLine]
  rfl

end Event

namespace Journal

theorem lines_trace (journal : Journal) : journal.lines .trace = journal.map Event.line := by
  have hvisible : ∀ e ∈ journal, decide (e.severity.rank ≤ Severity.trace.rank) = true := by
    intro e _
    cases e <;> rfl
  rw [lines, visible, List.filter_eq_self.2 hvisible]

end Journal

namespace FreeLists

/-- Does to the free lists what the lines say, as long as they can be read and followed. -/
def replayLines (s : FreeLists) (lines : List String) : Option FreeLists :=
  lines.foldlM (fun s line => Event.ofLine? line >>= s.follow?) s

variable {s t : FreeLists} {events : Journal} {e : Event}

theorem ofLine?_of_follow? (h : s.follow? e = some t) : Event.ofLine? e.line = some e := by
  cases e with
  | stored p => exact Event.ofLine?_stored p
  | dropped p => exact Event.ofLine?_dropped p
  | _ => cases h

theorem replayLines_of_replay (h : s.replay events = some t) :
    s.replayLines (events.map Event.line) = some t := by
  induction events generalizing s with
  | nil => exact h
  | cons e events ih =>
    obtain ⟨middle, hhere, hrest⟩ := replay_cons_iff.1 h
    rw [List.map_cons, replayLines, List.foldlM_cons, ofLine?_of_follow? hhere]
    exact Option.bind_eq_some_iff.2 ⟨middle, hhere, ih hrest⟩

end FreeLists

end AlignedRuns
