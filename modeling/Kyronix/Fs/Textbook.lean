import Kyronix.Fs.NodeRefs

/-! The walk of the books, in which a link is replaced by its text where it stands, and when
`lookup_internal`, which starts again from a text of 512 bytes, finds the same node. -/
namespace Kyronix.Fs

def pushed (p x : Text) : Text := if p.length > 1 then p ++ '/' :: x else p ++ x

namespace Tree

inductive Turn
  | stop
  | link (text : Text)
  | on (w : Walk)

variable (t : Tree) (c : Caller)

def start : Walk :=
  ⟨(t.nsMntCurrent c).root, (t.nsMntCurrent c).root, ['/']⟩

def entered (w : Walk) (x : Text) (child : ℕ) : Walk :=
  match nsMntFind (t.nsMntCurrent c) (pushed w.path x) with
  | some m => ⟨m.root, m.root, pushed w.path x⟩
  | none => ⟨child, w.boundary, pushed w.path x⟩

def turn (follow : Bool) (x : Text) (w : Walk) : Turn :=
  if (t.get w.cur).type ≠ .dir then .stop
  else if x = ['.'] then .on w
  else if x = ['.', '.'] then .on (t.walkUp w)
  else if mayAccess c (t.get w.cur) 1 = false then .stop
  else match t.dirFind w.cur x with
    | none => .stop
    | some child =>
      if (t.get child).type = .sym ∧ follow = true then
        match (t.get child).symlink with
        | none => .stop
        | some link => .link link
      else .on (t.entered c w x child)

section
variable {t : Tree} {c : Caller} {follow wanted slash : Bool}

variable {x : Text} {w : Walk}

end

end Tree

end Kyronix.Fs
