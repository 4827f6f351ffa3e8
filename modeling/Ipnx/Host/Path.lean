import Mathlib.Data.List.Infix

/-!
# Paths

A path of the host is its components, as the standard library reads them: slashes together are
one, a `.` counts only in front, and what starts with a slash starts at the root. A path joined
with one that starts at the root is that one.
-/

namespace Ipnx.Host

inductive Component
  | rootDir
  | curDir
  | parentDir
  | normal (name : String)
deriving DecidableEq, Repr

namespace Component

def name : Component → String
  | rootDir => "/"
  | curDir => "."
  | parentDir => ".."
  | normal n => n

end Component

abbrev Path := List Component

namespace Path

/-- A part between slashes, other than the first. -/
def part (s : String) : Option Component :=
  if s = "" ∨ s = "." then none
  else if s = ".." then some .parentDir
  else some (.normal s)

def new (s : String) : Path :=
  match (s.toList.splitOn '/').map String.ofList with
  | [] => []
  | first :: rest =>
      (if first = "" ∧ rest ≠ [] then [.rootDir]
        else if first = "." then [.curDir]
        else (part first).toList) ++ rest.filterMap part

def join (p q : Path) : Path :=
  match q with
  | .rootDir :: _ => q
  | .curDir :: rest => if p = [] then q else p ++ rest
  | _ => p ++ q

def parent (p : Path) : Option Path :=
  match p.getLast? with
  | none | some .rootDir => none
  | some _ => some p.dropLast

def fileName (p : Path) : Option String :=
  match p.getLast? with
  | some (.normal n) => some n
  | _ => none

/-- The path without its last component, if it can be without it. -/
def pop (p : Path) : Path := p.parent.getD p

def withFileName (p : Path) (name : String) : Path :=
  (if p.fileName.isSome then p.pop else p).join (new name)

def names (p : Path) : List String := p.map Component.name

/-- Relative, and made of normal components alone. -/
def Normal (p : Path) : Prop := ∀ c ∈ p, ∃ n, c = .normal n

theorem eq_of_fileName {p : Path} {n : String} (named : p.fileName = some n) :
    p = p.dropLast ++ [.normal n] ∧ p.parent = some p.dropLast := by
  rcases last : p.getLast? with _ | c
  · rw [fileName, last] at named
    cases named
  · rw [fileName, last] at named
    rw [parent, last]
    cases c with
    | normal m =>
        cases named
        exact ⟨(List.dropLast_append_getLast? _ last).symm, rfl⟩
    | rootDir => cases named
    | curDir => cases named
    | parentDir => cases named

theorem names_of_fileName {p : Path} {n : String} (named : p.fileName = some n) :
    p.names = names p.dropLast ++ [n] := by
  nth_rewrite 1 [(eq_of_fileName named).1]
  rw [names, List.map_append]
  rfl

end Path

end Ipnx.Host
