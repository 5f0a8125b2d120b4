set_option autoImplicit false

namespace AlignedRuns

inductive Layout where
  | oneLine
  | indented
deriving DecidableEq, Repr

namespace Layout

def deepen (text : String) : String :=
  String.ofList (text.toList.flatMap fun c => if c = '\n' then '\n' :: List.replicate 4 ' ' else [c])

/-- Encloses items. On one line they are separated by commas, with `pad` inside both ends; indented,
each ends in a comma and a line break. An empty group is the same in both. -/
def group (layout : Layout) (opening pad closing : String) (items : List String) : String :=
  if items.isEmpty then opening ++ closing
  else match layout with
    | oneLine => opening ++ pad ++ String.intercalate ", " items ++ pad ++ closing
    | indented =>
      opening ++ "\n" ++ String.join (items.map fun item => "    " ++ deepen item ++ ",\n") ++ closing

def tuple (layout : Layout) (name : String) (items : List String) : String :=
  layout.group (name ++ "(") "" ")" items

def record (layout : Layout) (name : String) (fields : List (String × String)) : String :=
  layout.group (name ++ " \x7b") " " "\x7d" (fields.map fun (field, value) => field ++ ": " ++ value)

def list (layout : Layout) (items : List String) : String := layout.group "[" "" "]" items

def table (layout : Layout) (entries : List (String × String)) : String :=
  layout.group "\x7b" "" "\x7d" (entries.map fun (key, value) => key ++ ": " ++ value)

end Layout

end AlignedRuns
