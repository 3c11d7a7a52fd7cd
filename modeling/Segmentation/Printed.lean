import Segmentation.Enumeration

/-! The one-line written form of values, for a reader who looks into them.
Texts are in quotes. A value with named parts shows them in braces, one with parts
by position in parentheses, a list in brackets. -/
namespace Segmentation

/-- Values with a written form. -/
class Printed (α : Type) where
  print : α → String

namespace Printed

/-- A quote, a backslash, a line feed and a tab have a backslash in front. -/
def escaped : Char → List Char
  | '"' => ['\\', '"']
  | '\\' => ['\\', '\\']
  | '\n' => ['\\', 'n']
  | '\t' => ['\\', 't']
  | c => [c]

def quoted (s : String) : String :=
  String.ofList ('"' :: s.toList.flatMap escaped ++ ['"'])

def separated (parts : List String) : String :=
  String.intercalate ", " parts

/-- A value with parts by position. -/
def call (name : String) (parts : List String) : String :=
  name ++ "(" ++ separated parts ++ ")"

/-- A value with named parts. -/
def record (name : String) (parts : List (String × String)) : String :=
  name ++ " \x7b " ++ separated (parts.map fun (field, part) => field ++ ": " ++ part) ++ " \x7d"

variable {α : Type} [Printed α]

instance : Printed Nat := ⟨toString⟩

instance : Printed Bool := ⟨toString⟩

instance : Printed Cost := ⟨fun c => toString c.val⟩

instance : Printed (List α) := ⟨fun xs => "[" ++ separated (xs.map print) ++ "]"⟩

instance : Printed (Option α) where
  print
    | none => "None"
    | some a => call "Some" [print a]

instance : Printed Failure where
  print
    | .invalid cause => call "InvalidArgument" [quoted cause.text]
    | .outOfRange index length =>
      record "OutOfRange" [("index", print index), ("len", print length)]
    | .misuse cause => call "Logic" [quoted cause.text]

instance : Printed Policy where
  print policy :=
    record "LatticeOptions" [("missing_connection",
      match policy with
      | .unreachable => "Unreachable"
      | .reject => "Reject")]

variable {σ ν : Type}

instance : Printed (Enumeration σ ν) where
  print e := record "NBestIterator" [
    ("index", print e.index),
    ("queued_caps", print e.frontier.queue.length),
    ("has_next", print e.hasNext),
    ("exhausted", print e.isExhausted)]

variable [Printed σ]

instance : Printed (Fragment σ) where
  print
    | .text s => call "String" [record "StringInput" [("value", quoted s)]]
    | .custom c => call "Custom" [record "CustomInput" [("backend", print c)]]

/-- An entry shows whether it has a value, but not the value. -/
def entry (name : String) (e : Entry σ ν) : String :=
  record name [
    ("key", print e.key),
    ("has_value", print e.value.isSome),
    ("cost", print e.cost)]

instance : Printed (Node σ ν) where
  print n := record "Node" [
    ("key", print n.entry.key),
    ("has_value", print n.entry.value.isSome),
    ("index_in_step", print n.index),
    ("preceding_step", print (n.origin.map Origin.step)),
    ("preceding_edge_costs", print n.edgeCosts),
    ("best_preceding_node", print (n.origin.map Origin.best)),
    ("node_cost", print n.entry.cost),
    ("path_cost", print n.pathCost)]

instance : Printed (Element σ ν) where
  print
    | .node n => call "Node" [print n]
    | .exactly count => call "Wildcard" [call "Exactly" [print count]]
    | .any => call "Wildcard" ["Any"]

instance : Printed (Pattern σ ν) where
  print p := record "Constraint" [("pattern", print p.elements)]

instance : Printed (Path σ ν) where
  print p := record "Path" [("nodes", print p.nodes), ("cost", print p.cost)]

/-- A tail is listed from the end of the input. -/
instance : Printed (Tail σ ν) where
  print t := record "Cap" [
    ("tail_path", print t.nodes.reverse),
    ("tail_path_cost", print t.cost),
    ("whole_path_cost", print t.wholeCost)]

end Printed

end Segmentation
