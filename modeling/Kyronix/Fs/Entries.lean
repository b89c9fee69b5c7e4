import Kyronix.Fs.Linked

/-! The calls that make entries, and `vfs_unlink`: what each of them can do to the tree. A call that
fails gives back the references that it took. -/
namespace Kyronix.Fs

open Function Vfs

variable {t : Tree} {v : Vfs} {c : Caller} {n : ℕ} {path : Text} {follow : Bool}

theorem Vfs.nodeUnref_nodeRef (hdel : (v.get n).deleted = false) :
    (v.nodeRef n).nodeUnref n = v := by
  have hself : (v.nodeRef n).refcnt n = v.refcnt n + 1 := update_self ..
  have hget : (v.nodeRef n).get n = v.get n := rfl
  unfold nodeUnref
  rw [hself, if_neg (Nat.succ_ne_zero _), hget]
  rw [hdel, if_neg (by simp)]
  unfold nodeRef
  simp only [Nat.add_sub_cancel, update_idem, update_eq_self]

theorem Vfs.lookup_cases (v : Vfs) (c : Caller) (path : Text) (follow : Bool) :
    v.lookup c path follow = (none, v) ∨
      ∃ n, v.resolve c path follow = some n ∧ v.lookup c path follow = (some n, v.nodeRef n) := by
  unfold lookup
  cases h : v.resolve c path follow with
  | none => exact .inl rfl
  | some n => exact .inr ⟨n, rfl, rfl⟩

theorem Vfs.parentOf_cases (v : Vfs) (c : Caller) (path : Text) :
    v.parentOf c path = (none, v) ∨
      ∃ p, v.resolve c (splitLeaf path).1 true = some p ∧
        v.parentOf c path = (some p, v.nodeRef p) := by
  unfold parentOf
  split
  · exact .inl rfl
  · rcases v.lookup_cases c (splitLeaf path).1 true with h | ⟨p, hp, h⟩
    · exact .inl h
    · exact .inr ⟨p, hp, h⟩

theorem Tree.resolve_deleted (h : t.resolve c path follow = some n) :
    (t.get n).deleted = false := by
  simpa using (Option.filter_eq_some_iff.mp h).2

theorem Vfs.nodeUnref_found (h : v.resolve c path follow = some n) :
    (v.nodeRef n).nodeUnref n = v :=
  nodeUnref_nodeRef (Tree.resolve_deleted h)

structure NewNode (nd : Vnode) : Prop where
  parent : nd.parent = none
  children : nd.children = []
  index : nd.index = none
  kept : nd.deleted = true → nd.type ≠ .dir

theorem newNode_alloc (c : Caller) (name : Text) (type : VType) (mode : UInt32) :
    NewNode (nodeAlloc c name type mode) := ⟨rfl, rfl, rfl, fun h => absurd h (by simp [nodeAlloc])⟩

theorem Vfs.vfsCreateFile_cases (v : Vfs) (c : Caller) (path : Text) (mode : UInt32) (mem : Mem) :
    v.vfsCreateFile c path mode mem = (none, v) ∨
      ∃ p, v.resolve c (splitLeaf path).1 true = some p ∧ (v.get p).type = .dir ∧
        ((∃ e, v.dirFind p (splitLeaf path).2 = some e ∧ v.vfsCreateFile c path mode mem =
            (if (v.get e).type = .reg then some e else none, v)) ∨
          v.vfsCreateFile c path mode mem = (some v.next, ((v.nodeRef p).create p
            (nodeAlloc c (splitLeaf path).2 .reg (applyUmask c (mode &&& 0o7777) ||| 0o100000))
            mem.index).nodeUnref p)) := by
  unfold vfsCreateFile
  split
  · exact .inl rfl
  rcases v.parentOf_cases c path with hpar | ⟨p, hp, hpar⟩
  · rw [hpar]
    exact .inl rfl
  rw [hpar]
  dsimp only
  rw [nodeUnref_found hp]
  split
  · exact .inl rfl
  next htype =>
    split
    · exact .inl rfl
    split
    · next e he => exact .inr ⟨p, hp, not_not.mp htype, .inl ⟨e, he, rfl⟩⟩
    · exact .inr ⟨p, hp, not_not.mp htype, .inr rfl⟩

theorem Vfs.vfsUnlink_cases (v : Vfs) (c : Caller) (path : Text) :
    (∃ e, v.vfsUnlink c path = (e, v)) ∨
      ∃ n p, v.resolve c path false = some n ∧ (v.get n).type ≠ .dir ∧
        (v.get n).parent = some p ∧
        v.vfsUnlink c path = (0, (v.nodeRef n).unlinkFound p n) := by
  unfold vfsUnlink
  split
  · exact .inl ⟨_, rfl⟩
  rcases v.lookup_cases c path false with hlook | ⟨n, hn, hlook⟩
  · rw [hlook]
    exact .inl ⟨_, rfl⟩
  rw [hlook]
  dsimp only
  rw [nodeUnref_found hn]
  split
  · exact .inl ⟨_, rfl⟩
  next htype =>
    split
    · exact .inl ⟨_, rfl⟩
    next p hp =>
      split
      · exact .inl ⟨_, rfl⟩
      · exact .inr ⟨n, p, hn, htype, hp, rfl⟩

end Kyronix.Fs
