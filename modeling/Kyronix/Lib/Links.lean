import Mathlib

/-! Linked lists in a store of nodes, with one address that stands for the end. Each operation is
made of re-links of two neighbours. -/
namespace Kyronix.Lib.Links

open List Function

variable {α : Type*} {null : α} {prev next prev' next' : α → α} {l L M l₁ l₂ : List α} {a b x y : α}

def Linked (null : α) (prev next : α → α) (x y : α) : Prop :=
  (x ≠ null → next x = y) ∧ (y ≠ null → prev y = x)

def Dll (null : α) (prev next : α → α) (l : List α) : Prop :=
  (null :: l ++ [null]).IsChain (Linked null prev next)

theorem dll_nil : Dll null prev next [] :=
  isChain_cons_cons.mpr ⟨⟨fun h => absurd rfl h, fun h => absurd rfl h⟩,
    isChain_singleton null⟩

theorem Linked.chain_congr (h : l.IsChain (Linked null prev next))
    (hnext : ∀ x ∈ l.dropLast, x ≠ null → next' x = next x)
    (hprev : ∀ y ∈ l.tail, y ≠ null → prev' y = prev y) :
    l.IsChain (Linked null prev' next') := by
  induction l with
  | nil => exact isChain_nil
  | cons x l ih =>
    cases l with
    | nil => exact isChain_singleton x
    | cons y l =>
      obtain ⟨hxy, hl⟩ := isChain_cons_cons.mp h
      refine isChain_cons_cons.mpr ⟨⟨fun hx => ?_, fun hy => ?_⟩, ih hl ?_ ?_⟩
      · rw [hnext x (by simp) hx]
        exact hxy.1 hx
      · rw [hprev y (by simp) hy]
        exact hxy.2 hy
      · intro z hz
        exact hnext z (by simp only [dropLast_cons_cons]; exact mem_cons_of_mem _ hz)
      · intro z hz
        exact hprev z (mem_cons_of_mem _ hz)

theorem Dll.congr (h : Dll null prev next l) (hnext : ∀ x ∈ l, next' x = next x)
    (hprev : ∀ x ∈ l, prev' x = prev x) : Dll null prev' next' l := by
  refine Linked.chain_congr h (fun x hx hne => ?_) (fun y hy hne => ?_)
  · rw [dropLast_concat] at hx
    exact hnext x ((mem_cons.mp hx).resolve_left hne)
  · rw [cons_append, tail_cons] at hy
    exact hprev y ((mem_append.mp hy).resolve_right fun h => hne (mem_singleton.mp h))

/-! The end address before the first node and behind the last one. -/

theorem exists_concat (null : α) (l : List α) : ∃ L, null :: l = L ++ [l.getLastD null] := by
  induction l using List.reverseRecOn with
  | nil => exact ⟨[], rfl⟩
  | append_singleton l x ih => exact ⟨null :: l, by rw [getLastD_concat]; rfl⟩

theorem exists_cons (null : α) (l : List α) : ∃ M, l ++ [null] = l.headD null :: M := by
  cases l with
  | nil => exact ⟨[], rfl⟩
  | cons x l => exact ⟨l ++ [null], rfl⟩

theorem getLastD_mem (h : l.getLastD null ≠ null) : l.getLastD null ∈ l := by
  obtain ⟨L, hL⟩ := exists_concat null l
  have hmem : l.getLastD null ∈ null :: l := by
    rw [hL]
    exact mem_append_right _ (mem_singleton_self _)
  exact (mem_cons.mp hmem).resolve_left h

theorem getLastD_ne (hnull : null ∉ l) (hl : l ≠ []) : l.getLastD null ≠ null := by
  induction l using List.reverseRecOn with
  | nil => exact absurd rfl hl
  | append_singleton l x _ =>
    rw [getLastD_concat]
    rintro rfl
    exact hnull (by simp)

theorem headD_mem (h : l.headD null ≠ null) : l.headD null ∈ l := by
  cases l with
  | nil => exact absurd rfl h
  | cons x l => exact mem_cons_self ..

section Relink

variable [DecidableEq α]

def setAt (null : α) (f : α → α) (x y : α) : α → α :=
  if x = null then f else update f x y

@[simp] theorem setAt_null (f : α → α) (y : α) : setAt null f null y = f := if_pos rfl

theorem setAt_of_ne (f : α → α) (hx : x ≠ null) : setAt null f x y = update f x y :=
  if_neg hx

theorem setAt_self (f : α → α) (hx : x ≠ null) : setAt null f x y x = y := by
  rw [setAt_of_ne f hx, update_self]

theorem setAt_frame (f : α → α) {z : α} (h : x ≠ null → z ≠ x) : setAt null f x y z = f z := by
  by_cases hx : x = null
  · rw [hx, setAt_null]
  · rw [setAt_of_ne f hx, update_of_ne (h hx)]

theorem relink (hL : (L ++ [a]).IsChain (Linked null prev next))
    (hM : (b :: M).IsChain (Linked null prev next))
    (ha : a ≠ null → a ∉ L ∧ a ∉ b :: M) (hb : b ≠ null → b ∉ L ++ [a] ∧ b ∉ M) :
    (L ++ a :: b :: M).IsChain (Linked null (setAt null prev b a) (setAt null next a b)) := by
  refine isChain_append_cons_cons.mpr ⟨?_, ⟨setAt_self next, setAt_self prev⟩, ?_⟩
  · refine Linked.chain_congr hL (fun x hx _ => ?_) (fun y hy _ => ?_)
    · rw [dropLast_concat] at hx
      exact setAt_frame next fun hn hxa => (ha hn).1 (hxa ▸ hx)
    · exact setAt_frame prev fun hn hyb => (hb hn).1 (hyb ▸ mem_of_mem_tail hy)
  · refine Linked.chain_congr hM (fun x hx _ => ?_) (fun y hy _ => ?_)
    · exact setAt_frame next fun hn hxa => (ha hn).2 (hxa ▸ mem_of_mem_dropLast hx)
    · exact setAt_frame prev fun hn hyb => (hb hn).2 (hyb ▸ hy)

theorem relink_parts (hL : (null :: l₁).IsChain (Linked null prev next))
    (hM : (l₂ ++ [null]).IsChain (Linked null prev next)) (hnd : (l₁ ++ l₂).Nodup)
    (hnull : null ∉ l₁ ++ l₂) :
    Dll null (setAt null prev (l₂.headD null) (l₁.getLastD null))
      (setAt null next (l₁.getLastD null) (l₂.headD null)) (l₁ ++ l₂) := by
  obtain ⟨L, hL₁⟩ := exists_concat null l₁
  obtain ⟨M, hM₂⟩ := exists_cons null l₂
  have heq : null :: (l₁ ++ l₂) ++ [null] = L ++ l₁.getLastD null :: l₂.headD null :: M := by
    rw [cons_append, append_assoc, hM₂, ← cons_append, hL₁, append_assoc]
    rfl
  obtain ⟨hnd₁, hnd₂, hdisj⟩ := nodup_append.mp hnd
  have hnull₁ : null ∉ l₁ := fun h => hnull (mem_append_left _ h)
  have hnull₂ : null ∉ l₂ := fun h => hnull (mem_append_right _ h)
  have hndL : (L ++ [l₁.getLastD null]).Nodup := by
    rw [← hL₁]
    exact nodup_cons.mpr ⟨hnull₁, hnd₁⟩
  have hndM : (l₂.headD null :: M).Nodup := by
    rw [← hM₂]
    exact nodup_append.mpr ⟨hnd₂, nodup_singleton _, by
      intro z hz w hw hzw
      rw [hzw, mem_singleton.mp hw] at hz
      exact hnull₂ hz⟩
  rw [Dll, heq]
  apply relink
  · rwa [← hL₁]
  · rwa [← hM₂]
  · intro ha
    refine ⟨fun h => ?_, fun h => ?_⟩
    · exact (nodup_append.mp hndL).2.2 _ h _ (mem_singleton_self _) rfl
    · rw [← hM₂] at h
      rcases mem_append.mp h with h | h
      · exact hdisj _ (getLastD_mem ha) _ h rfl
      · exact ha (mem_singleton.mp h)
  · intro hb
    refine ⟨fun h => ?_, (nodup_cons.mp hndM).1⟩
    rw [← hL₁] at h
    rcases mem_cons.mp h with h | h
    · exact hb h
    · exact hdisj _ h _ (headD_mem hb) rfl

omit [DecidableEq α] in
theorem Dll.split (h : Dll null prev next (l₁ ++ x :: l₂)) (hx : x ≠ null) :
    (null :: l₁).IsChain (Linked null prev next) ∧ (l₂ ++ [null]).IsChain (Linked null prev next) ∧
      prev x = l₁.getLastD null ∧ next x = l₂.headD null := by
  obtain ⟨L, hL⟩ := exists_concat null l₁
  obtain ⟨M, hM⟩ := exists_cons null l₂
  have heq : null :: (l₁ ++ x :: l₂) ++ [null] =
      L ++ l₁.getLastD null :: x :: l₂.headD null :: M := by
    rw [cons_append, append_assoc, cons_append, hM, ← cons_append, hL,
      append_assoc]
    rfl
  rw [Dll, heq, isChain_append_cons_cons, isChain_cons_cons] at h
  obtain ⟨hL', hax, hxb, hM'⟩ := h
  rw [hL, hM]
  exact ⟨hL', hM', hax.2 hx, hxb.1 hx⟩

theorem Dll.remove (h : Dll null prev next (l₁ ++ x :: l₂)) (hnd : (l₁ ++ x :: l₂).Nodup)
    (hnull : null ∉ l₁ ++ x :: l₂) :
    Dll null (setAt null prev (next x) (prev x)) (setAt null next (prev x) (next x))
      (l₁ ++ l₂) := by
  have hx : x ≠ null := by
    rintro rfl
    exact hnull (by simp)
  obtain ⟨hL, hM, hprev, hnext⟩ := h.split hx
  rw [hprev, hnext]
  have hsub : (l₁ ++ l₂).Sublist (l₁ ++ x :: l₂) := by simp
  exact relink_parts hL hM (hnd.sublist hsub) fun hm => hnull (hsub.subset hm)

omit [DecidableEq α] in
theorem Dll.tail_congr (h : Dll null prev next (l₁ ++ l₂)) (hnext : ∀ x ∈ l₂, next' x = next x)
    (hprev : ∀ x ∈ l₂, prev' x = prev x) : (l₂ ++ [null]).IsChain (Linked null prev' next') := by
  have hM : (l₂ ++ [null]).IsChain (Linked null prev next) := by
    rw [Dll, ← cons_append, append_assoc] at h
    exact h.right_of_append
  refine Linked.chain_congr hM (fun x hx _ => ?_) (fun y hy hne => ?_)
  · rw [dropLast_concat] at hx
    exact hnext x hx
  · have hmem := mem_append.mp (mem_of_mem_tail hy)
    exact hprev y (hmem.resolve_right fun h => hne (mem_singleton.mp h))

theorem Dll.cons (h : Dll null prev next l) (hnd : (x :: l).Nodup) (hnull : null ∉ x :: l) :
    Dll null (setAt null (update prev x null) (l.headD null) x)
      (update next x (l.headD null)) (x :: l) := by
  have hx : x ≠ null := fun hx => hnull (hx ▸ mem_cons_self ..)
  have hL : (null :: [x]).IsChain (Linked null (update prev x null) next) :=
    isChain_cons_cons.mpr ⟨⟨fun h => absurd rfl h, fun _ => update_self ..⟩,
      isChain_singleton x⟩
  have h' : Dll null prev next ([] ++ l) := h
  have hM : (l ++ [null]).IsChain (Linked null (update prev x null) next) :=
    h'.tail_congr (fun _ _ => rfl) fun z hz =>
      update_of_ne (ne_of_mem_of_not_mem hz (nodup_cons.mp hnd).1) ..
  have hjoin := relink_parts hL hM hnd hnull
  rwa [← nil_append [x], getLastD_concat, nil_append, setAt_of_ne next hx] at hjoin

theorem Dll.insertAfter (h : Dll null prev next (l₁ ++ y :: l₂))
    (hnd : (l₁ ++ y :: x :: l₂).Nodup) (hnull : null ∉ l₁ ++ y :: x :: l₂) :
    Dll null (setAt null (update prev x y) (next y) x)
      (update (update next x (next y)) y x) (l₁ ++ y :: x :: l₂) := by
  have hx : x ≠ null := by
    rintro rfl
    exact hnull (by simp)
  have hy : y ≠ null := by
    rintro rfl
    exact hnull (by simp)
  obtain ⟨hnd₁, hnd₂, hdisj⟩ := nodup_append.mp hnd
  obtain ⟨hy₂, hx₂, -⟩ : y ∉ x :: l₂ ∧ x ∉ l₂ ∧ l₂.Nodup := by
    rwa [nodup_cons, nodup_cons] at hnd₂
  have hyx : y ≠ x := fun hyx => hy₂ (hyx ▸ mem_cons_self ..)
  have hy₁ : ∀ z ∈ l₁, z ≠ y := fun z hz => hdisj z hz y (mem_cons_self ..)
  have hx₁ : ∀ z ∈ l₁, z ≠ x := fun z hz =>
    hdisj z hz x (mem_cons_of_mem _ (mem_cons_self ..))
  have hfront : (null :: l₁ ++ [y]).IsChain (Linked null prev next) := by
    rw [Dll, ← cons_append, append_assoc, ← singleton_append (x := y),
      append_assoc, ← append_assoc] at h
    exact h.left_of_append
  have hL : (null :: (l₁ ++ [y, x])).IsChain
      (Linked null (update prev x y) (update next y x)) := by
    rw [← cons_append]
    refine isChain_append_cons_cons.mpr ⟨Linked.chain_congr hfront ?_ ?_, ⟨?_, ?_⟩,
      isChain_singleton x⟩
    · intro z hz hne
      rw [dropLast_concat] at hz
      exact update_of_ne (hy₁ z ((mem_cons.mp hz).resolve_left hne)) ..
    · intro z hz hne
      refine update_of_ne ?_ ..
      rw [cons_append, tail_cons] at hz
      rcases mem_append.mp hz with hz | hz
      · exact hx₁ z hz
      · rw [mem_singleton.mp hz]
        exact hyx
    · exact fun _ => update_self ..
    · exact fun _ => update_self ..
  have hM : (l₂ ++ [null]).IsChain
      (Linked null (update prev x y) (update next y x)) := by
    rw [← singleton_append (x := y), ← append_assoc] at h
    refine h.tail_congr (fun z hz => ?_) (fun z hz => ?_)
    · refine update_of_ne ?_ ..
      rintro rfl
      exact hy₂ (mem_cons_of_mem _ hz)
    · refine update_of_ne ?_ ..
      rintro rfl
      exact hx₂ hz
  have heq : l₁ ++ y :: x :: l₂ = (l₁ ++ [y, x]) ++ l₂ := by
    rw [append_assoc]
    rfl
  rw [heq] at hnd hnull ⊢
  have hjoin := relink_parts hL hM hnd hnull
  have hlast : (l₁ ++ [y, x]).getLastD null = x := by
    rw [append_cons, getLastD_concat]
  rw [hlast, setAt_of_ne _ hx, update_comm hyx] at hjoin
  rwa [(h.split hy).2.2.2]

end Relink

def Apart {ι : Type*} (m : ι → List α) : Prop := ∀ ⦃i j x⦄, x ∈ m i → x ∈ m j → i = j

variable {ι : Type*} [DecidableEq ι] {m : ι → List α} {i j : ι}

theorem Apart.update (h : Apart m) (hnew : ∀ x ∈ l, x ∈ m i ∨ ∀ j, x ∉ m j) :
    Apart (update m i l) := by
  intro j k x hj hk
  by_cases hji : j = i <;> by_cases hki : k = i
  · rw [hji, hki]
  · rw [hji, update_self] at hj
    rw [update_of_ne hki] at hk
    rcases hnew x hj with hx | hx
    · exact absurd (h hk hx) hki
    · exact absurd hk (hx k)
  · rw [hki, update_self] at hk
    rw [update_of_ne hji] at hj
    rcases hnew x hk with hx | hx
    · exact absurd (h hj hx) hji
    · exact absurd hj (hx j)
  · rw [update_of_ne hji] at hj
    rw [update_of_ne hki] at hk
    exact h hj hk

theorem Apart.mem_erase [DecidableEq α] (h : Apart m) (hnd : (m i).Nodup) (hx : x ∈ m i) :
    y ∈ Function.update m i ((m i).erase x) j ↔ y ∈ m j ∧ y ≠ x := by
  by_cases hj : j = i
  · rw [hj, Function.update_self, hnd.mem_erase_iff, and_comm]
  · rw [Function.update_of_ne hj]
    refine ⟨fun hy => ⟨hy, ?_⟩, And.left⟩
    rintro rfl
    exact hj (h hy hx)

theorem mem_update_cons : y ∈ update m i (x :: m i) j ↔ y ∈ m j ∨ (y = x ∧ j = i) := by
  by_cases hj : j = i
  · rw [hj, update_self, mem_cons, or_comm, and_iff_left rfl]
  · rw [update_of_ne hj]
    exact ⟨Or.inl, fun hy => hy.resolve_right fun hy => hj hy.2⟩

def Sll (null : α) (next : α → α) (l : List α) : Prop :=
  (l ++ [null]).IsChain fun x y => next x = y

theorem sll_nil : Sll null next [] := isChain_singleton null

theorem sll_cons : Sll null next (x :: l) ↔ next x = l.headD null ∧ Sll null next l := by
  obtain ⟨M, hM⟩ := exists_cons null l
  rw [Sll, Sll, cons_append, hM, isChain_cons_cons]

theorem Sll.congr (h : Sll null next l) (hnext : ∀ x ∈ l, next' x = next x) : Sll null next' l := by
  induction l with
  | nil => exact sll_nil
  | cons x l ih =>
    obtain ⟨hx, hl⟩ := sll_cons.mp h
    refine sll_cons.mpr ⟨?_, ih hl fun z hz => hnext z (mem_cons_of_mem _ hz)⟩
    rw [hnext x (mem_cons_self ..), hx]

theorem Dll.sll (h : Dll null prev next l) (hnull : null ∉ l) : Sll null next l := by
  have hchain : (l ++ [null]).IsChain (Linked null prev next) := List.IsChain.tail h
  clear h
  induction l with
  | nil => exact sll_nil
  | cons x l ih =>
    have hx : x ≠ null := fun hx => hnull (hx ▸ mem_cons_self ..)
    obtain ⟨M, hM⟩ := exists_cons null l
    rw [cons_append, hM, isChain_cons_cons, ← hM] at hchain
    exact sll_cons.mpr ⟨hchain.1.1 hx, ih (fun hl => hnull (mem_cons_of_mem x hl)) hchain.2⟩

end Kyronix.Lib.Links
