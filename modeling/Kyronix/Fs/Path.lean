import Mathlib

/-! Path texts (`vfs.c`, `jail.c`): components, the canonical form, and the clamp that puts a path
of a jailed process under the root of its jail. -/
namespace Kyronix.Fs

abbrev Text := List Char

def cut (n : ℕ) (t : Text) : Text := t.take (n - 1)

def skipSlashes (p : Text) : Text := p.dropWhile (· = '/')
def headComp (p : Text) : Text := p.takeWhile (· ≠ '/')
def afterComp (p : Text) : Text := skipSlashes (p.dropWhile (· ≠ '/'))

theorem length_afterComp_lt (ch : Char) (t : Text) :
    (afterComp (ch :: t)).length < (ch :: t).length := by
  have hskip : ∀ p : Text, (skipSlashes p).length ≤ p.length :=
    fun p => (List.dropWhile_sublist _).length_le
  have hdrop : (t.dropWhile (· ≠ '/')).length ≤ t.length := (List.dropWhile_sublist _).length_le
  unfold afterComp
  by_cases h : ch = '/'
  · subst h
    have := hskip t
    simp [skipSlashes, List.dropWhile] at this ⊢
    omega
  · have := hskip (t.dropWhile (· ≠ '/'))
    rw [List.dropWhile_cons_of_pos (by simpa using h), List.length_cons]
    omega

/-- The components of a path that does not begin with a slash, each with the text that comes
after it. -/
def pathTokens : Text → List (Text × Text)
  | [] => []
  | ch :: t => (headComp (ch :: t), afterComp (ch :: t)) :: pathTokens (afterComp (ch :: t))
termination_by p => p.length
decreasing_by exact length_afterComp_lt ch t

def components (p : Text) : List Text := (pathTokens (skipSlashes p)).map Prod.fst

/-- The components of `path_canon`, last one first; it stops at the first that has no room. -/
def canonComps (sz : ℕ) : List Text → List Text → List Text
  | [], kept => kept
  | x :: xs, kept =>
    if x = ['.'] then canonComps sz xs kept
    else if x = ['.', '.'] then canonComps sz xs kept.tail
    else if 128 ≤ kept.length ∨ (kept.map fun k => k.length + 1).sum + 1 + x.length ≥ sz then kept
    else canonComps sz xs (x :: kept)

def joinComps (kept : List Text) : Text := (kept.reverse.map fun x => '/' :: x).flatten

def pathCanon (sz : ℕ) (p : Text) : Text :=
  match canonComps sz (components p) [] with
  | [] => ['/']
  | kept => joinComps kept

def pathUnder (path dir : Text) : Bool :=
  dir.isPrefixOf path && (path.drop dir.length).head?.all (· == '/')

def jailCanonClamp (path root : Text) : Text :=
  if root = [] then path
  else
    let sub := if pathUnder path root then path.drop root.length else path
    let canon := pathCanon 512 sub
    cut 512 (cut 768 (if canon = ['/'] then root else root ++ canon))

def joinDir (dir p : Text) : Text :=
  if dir.getLast? = some '/' then dir ++ p else dir ++ '/' :: p

def vfsAbsPath (root cwd p : Text) : Text :=
  if p.head? = some '/' then jailCanonClamp (cut 512 (root ++ p)) root
  else if cwd.length ≥ 512 then []
  else jailCanonClamp (cut 512 (joinDir cwd p)) root

/-- The directory part and the last component, as `parent_of` finds them. Slashes at the end stay in
the last component. -/
def splitLeaf (path : Text) : Text × Text :=
  let body := (path.reverse.dropWhile (· = '/')).reverse
  let dir := (body.reverse.dropWhile (· ≠ '/')).reverse
  if dir.length ≤ 1 then (['/'], if path.head? = some '/' then path.tail else path)
  else (dir.dropLast, path.drop dir.length)

example : splitLeaf ['/', 'a', '/', 'b', '/'] = (['/', 'a'], ['b', '/']) := by decide

def lookupPathPush (p x : Text) : Option Text :=
  if p.length + 1 + x.length ≥ 512 then none
  else some (if p.length > 1 then p ++ '/' :: x else p ++ x)

def lookupPathPop (p : Text) : Text :=
  if p.length ≤ 1 then p
  else
    let dir := (p.reverse.dropWhile (· ≠ '/')).reverse
    if dir.length > 1 then dir.dropLast else ['/']

end Kyronix.Fs
