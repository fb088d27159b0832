/-!
Cutting lists: into the stretches between separators, and into lines.
-/
namespace MapReduce

def consFirst {α : Type} (x : α) : List (List α) → List (List α)
  | [] => [[x]]
  | part :: parts => (x :: part) :: parts

/-- The stretches between the elements that satisfy `p`, one more than there are such elements. -/
def splitWhere {α : Type} (p : α → Bool) (xs : List α) : List (List α) :=
  xs.foldr (fun x parts => if p x then [] :: parts else consFirst x parts) [[]]

/-- A line and whether a newline ended it; only the last line of a text can lack one. -/
structure Line (α : Type) where
  content : List α
  terminated : Bool
  deriving DecidableEq, Repr

namespace Line

variable {α : Type}

def cons (x : α) : List (Line α) → List (Line α)
  | [] => [⟨[x], false⟩]
  | line :: rest => ⟨x :: line.content, line.terminated⟩ :: rest

/-- Every newline ends a line, and what follows the last one is a line unless it is empty. -/
def split [BEq α] (newline : α) (xs : List α) : List (Line α) :=
  xs.foldr (fun x lines => if x == newline then ⟨[], true⟩ :: lines else cons x lines) []

def raw (newline : α) (line : Line α) : List α :=
  if line.terminated then line.content ++ [newline] else line.content

/-- The content less one `mark` before the newline; an unterminated line keeps it. -/
def withoutReturn [BEq α] (mark : α) (line : Line α) : List α :=
  if line.terminated && line.content.getLast? == some mark then line.content.dropLast
  else line.content

end Line

end MapReduce
