import Kyronix.Mm.Heap

/-! The three kinds of lists the heap threads through its blocks, each as the list of the blocks on
it: the list of all blocks, the free bins and the small caches. -/
namespace Kyronix.Mm

open Lib.Links Function List FreeBins

structure BlockList.Holds (l : BlockList) (bs : List ℕ) : Prop where
  links : Dll 0 l.prev l.next bs
  head : l.head = bs.headD 0
  tail : l.tail = bs.getLastD 0

section Blocks

variable {l : BlockList} {bs bs₁ bs₂ : List ℕ} {b t : ℕ}

theorem BlockList.Holds.start (hb : b ≠ 0) : (l.start b).Holds [b] := by
  refine ⟨?_, rfl, rfl⟩
  have hnil : Dll 0 l.prev l.next [] := dll_nil
  have hlinks := hnil.cons (x := b)
    (nodup_singleton b) (by simpa using hb.symm)
  rwa [headD_nil, setAt_null] at hlinks

theorem BlockList.Holds.append (h : l.Holds (bs ++ [b])) (hnd : (bs ++ [b, t]).Nodup)
    (hnull : 0 ∉ bs ++ [b, t]) : (l.append t).Holds (bs ++ [b, t]) := by
  have htail : l.tail = b := by rw [h.tail, getLastD_concat]
  have hb : b ≠ 0 := by
    rintro rfl
    exact hnull (by simp)
  have hnext : l.next b = 0 := (h.links.split hb).2.2.2
  have hlinks := h.links.insertAfter hnd hnull
  rw [hnext, setAt_null] at hlinks
  refine ⟨?_, ?_, ?_⟩
  · simp only [BlockList.append, htail]
    exact hlinks
  · rw [BlockList.append, h.head]
    cases bs <;> rfl
  · rw [BlockList.append, append_cons, getLastD_concat]

-- the last block is the one just before `t`'s place, or lies behind it
theorem getLastD_end (bs₁ l : List ℕ) (b z : ℕ) : (bs₁ ++ b :: (l ++ [z])).getLastD 0 = z := by
  rw [← cons_append, ← append_assoc, getLastD_concat]

theorem getLastD_insert (hnd : (bs₁ ++ b :: t :: bs₂).Nodup) :
    (bs₁ ++ b :: t :: bs₂).getLastD 0 =
      if (bs₁ ++ b :: bs₂).getLastD 0 = b then t else (bs₁ ++ b :: bs₂).getLastD 0 := by
  induction bs₂ using List.reverseRecOn with
  | nil => rw [getLastD_concat, if_pos rfl, append_cons, getLastD_concat]
  | append_singleton l z _ =>
    have hne : z ≠ b := by
      rintro rfl
      have hz := (nodup_append.mp hnd).2.1
      exact (nodup_cons.mp hz).1 (by simp)
    rw [← cons_append, getLastD_end, getLastD_end, if_neg hne]

theorem getLastD_delete (hnd : (bs₁ ++ b :: t :: bs₂).Nodup) :
    (bs₁ ++ b :: bs₂).getLastD 0 =
      if (bs₁ ++ b :: t :: bs₂).getLastD 0 = t then b
      else (bs₁ ++ b :: t :: bs₂).getLastD 0 := by
  induction bs₂ using List.reverseRecOn with
  | nil => rw [getLastD_concat, append_cons, getLastD_concat, if_pos rfl]
  | append_singleton l z _ =>
    have hne : z ≠ t := by
      rintro rfl
      have hz := (nodup_cons.mp (nodup_append.mp hnd).2.1).2
      exact (nodup_cons.mp hz).1 (by simp)
    rw [getLastD_end, ← cons_append, getLastD_end, if_neg hne]

theorem BlockList.Holds.insertAfter (h : l.Holds (bs₁ ++ b :: bs₂))
    (hnd : (bs₁ ++ b :: t :: bs₂).Nodup) (hnull : 0 ∉ bs₁ ++ b :: t :: bs₂) :
    (l.insertAfter b t).Holds (bs₁ ++ b :: t :: bs₂) := by
  refine ⟨h.links.insertAfter hnd hnull, ?_, ?_⟩
  · rw [BlockList.insertAfter, h.head]
    cases bs₁ <;> rfl
  · rw [BlockList.insertAfter, h.tail, getLastD_insert hnd]

theorem BlockList.Holds.absorb (h : l.Holds (bs₁ ++ b :: t :: bs₂))
    (hnd : (bs₁ ++ b :: t :: bs₂).Nodup) (hnull : 0 ∉ bs₁ ++ b :: t :: bs₂) :
    (l.absorb b t).Holds (bs₁ ++ b :: bs₂) := by
  have hb : b ≠ 0 := by
    rintro rfl
    exact hnull (by simp)
  have ht : t ≠ 0 := by
    rintro rfl
    exact hnull (by simp)
  have heq : bs₁ ++ b :: t :: bs₂ = (bs₁ ++ [b]) ++ t :: bs₂ := by simp
  have hlinks := h.links
  rw [heq] at hlinks hnd hnull
  have hprev : l.prev t = b := by rw [(hlinks.split ht).2.2.1, getLastD_concat]
  have hrem := hlinks.remove hnd hnull
  rw [hprev, setAt_of_ne l.next hb, append_assoc] at hrem
  refine ⟨hrem, ?_, ?_⟩
  · rw [BlockList.absorb, h.head]
    cases bs₁ <;> rfl
  · rw [← heq] at hnd
    rw [BlockList.absorb, h.tail, getLastD_delete hnd]

end Blocks

structure FreeBins.Holds (f : FreeBins) (m : ℕ → List ℕ) : Prop where
  links : ∀ i, Dll 0 f.freePrev f.freeNext (m i)
  heads : ∀ i, f.heads i = (m i).headD 0
  nodup : ∀ i, (m i).Nodup
  nonnull : ∀ i, 0 ∉ m i
  apart : Apart m

section Bins

variable {f : FreeBins} {m : ℕ → List ℕ} {i b : ℕ}

theorem FreeBins.Holds.clear (h : f.Holds m) (hb : ∀ i, b ∉ m i) (x y : ℕ) :
    FreeBins.Holds { f with freePrev := update f.freePrev b x
                            freeNext := update f.freeNext b y } m := by
  refine ⟨fun i => (h.links i).congr (fun z hz => ?_) (fun z hz => ?_), h.heads, h.nodup, h.nonnull,
    h.apart⟩
  · exact update_of_ne (ne_of_mem_of_not_mem hz (hb i)) ..
  · exact update_of_ne (ne_of_mem_of_not_mem hz (hb i)) ..

theorem FreeBins.insert_eq (f : FreeBins) (i b : ℕ) :
    f.insert i b =
      ⟨setAt 0 (update f.freePrev b 0) (f.heads i) b,
        update f.freeNext b (f.heads i), update f.heads i b⟩ := by
  simp only [insert, update_self]
  by_cases h : f.heads i = 0
  · rw [if_neg (not_not.mpr h), h, setAt_null]
  · rw [if_pos h, setAt_of_ne _ h]

theorem FreeBins.remove_eq (f : FreeBins) (i b : ℕ) :
    f.remove i b =
      ⟨update (setAt 0 f.freePrev (f.freeNext b) (f.freePrev b)) b 0,
        update (setAt 0 f.freeNext (f.freePrev b) (f.freeNext b)) b 0,
        if f.freePrev b = 0 then update f.heads i (f.freeNext b) else f.heads⟩ := by
  have hkeep : update f.freeNext (f.freePrev b) (f.freeNext b) b = f.freeNext b := by
    by_cases h : b = f.freePrev b
    · rw [← h, update_self]
    · exact update_of_ne h ..
  by_cases hp : f.freePrev b = 0 <;> by_cases hn : f.freeNext b = 0
  · simp [remove, hp, hn]
  · simp [remove, hp, hn, setAt_of_ne]
  · rw [hn] at hkeep
    simp [remove, hp, hn, setAt_of_ne, hkeep]
  · simp [remove, hp, hn, setAt_of_ne, hkeep]

theorem FreeBins.Holds.replace (h : f.Holds m) {f' : FreeBins} {l : List ℕ}
    (hlinks : Dll 0 f'.freePrev f'.freeNext l) (hhead : f'.heads i = l.headD 0)
    (hheads : ∀ j, j ≠ i → f'.heads j = f.heads j) (hnd : l.Nodup) (hnull : 0 ∉ l)
    (hnew : ∀ z ∈ l, z ∈ m i ∨ ∀ j, z ∉ m j)
    (hframe : ∀ j z, j ≠ i → z ∈ m j → f'.freePrev z = f.freePrev z ∧
      f'.freeNext z = f.freeNext z) :
    f'.Holds (update m i l) := by
  have hoff := Function.forall_update_iff m (a := i) (b := l)
  refine ⟨(hoff fun _ l => Dll 0 _ _ l).mpr ⟨hlinks, fun j hj => ?_⟩,
    (hoff fun j l => _ = l.headD 0).mpr ⟨hhead, fun j hj => ?_⟩,
    (hoff fun _ l => l.Nodup).mpr ⟨hnd, fun j _ => h.nodup j⟩,
    (hoff fun _ l => 0 ∉ l).mpr ⟨hnull, fun j _ => h.nonnull j⟩, h.apart.update hnew⟩
  · exact (h.links j).congr (fun z hz => (hframe j z hj hz).2) (fun z hz => (hframe j z hj hz).1)
  · rw [hheads j hj, h.heads j]

theorem FreeBins.Holds.ne_of_other (h : f.Holds m) {j x z : ℕ} (hj : j ≠ i) (hz : z ∈ m j)
    (hx : x ≠ 0 → x ∈ m i) : x ≠ 0 → z ≠ x := by
  rintro hne rfl
  exact hj (h.apart hz (hx hne))

theorem FreeBins.Holds.insert (h : f.Holds m) (i : ℕ) (hb : ∀ i, b ∉ m i) (hb₀ : b ≠ 0) :
    (f.insert i b).Holds (update m i (b :: m i)) := by
  have hhead : f.heads i ≠ 0 → f.heads i ∈ m i := by
    rw [h.heads i]
    exact headD_mem
  have hnd : (b :: m i).Nodup := nodup_cons.mpr ⟨hb i, h.nodup i⟩
  have hnull : 0 ∉ b :: m i := by
    intro h₀
    rcases mem_cons.mp h₀ with h₀ | h₀
    · exact hb₀ h₀.symm
    · exact h.nonnull i h₀
  rw [insert_eq]
  refine h.replace ?_ (update_self ..) (fun j hj => update_of_ne hj ..) hnd hnull
    ?_ ?_
  · dsimp only
    rw [h.heads i]
    exact (h.links i).cons hnd hnull
  · intro z hz
    rcases mem_cons.mp hz with rfl | hz
    · exact Or.inr hb
    · exact Or.inl hz
  · intro j z hj hz
    have hzb : z ≠ b := ne_of_mem_of_not_mem hz (hb j)
    refine ⟨?_, update_of_ne hzb ..⟩
    exact (setAt_frame _ (h.ne_of_other hj hz hhead)).trans (update_of_ne hzb ..)

theorem FreeBins.Holds.remove (h : f.Holds m) (hb : b ∈ m i) :
    (f.remove i b).Holds (update m i ((m i).erase b)) := by
  obtain ⟨l₁, l₂, hm⟩ := append_of_mem hb
  have hnd := h.nodup i
  have hnull := h.nonnull i
  have hlinks := h.links i
  have hb₀ : b ≠ 0 := ne_of_mem_of_not_mem hb hnull
  rw [hm] at hnd hnull hlinks
  obtain ⟨-, -, hprev, hnext⟩ := hlinks.split hb₀
  have hb₁ : b ∉ l₁ := fun hb' => (nodup_append.mp hnd).2.2 b hb' b (by simp) rfl
  have hb₂ : b ∉ l₂ := (nodup_cons.mp (nodup_append.mp hnd).2.1).1
  have herase : (m i).erase b = l₁ ++ l₂ := by
    rw [hm, erase_append_right _ hb₁, erase_cons_head]
  have hsub : (l₁ ++ l₂).Sublist (l₁ ++ b :: l₂) := by simp
  have hbl : b ∉ l₁ ++ l₂ := by
    rw [mem_append]
    exact not_or.mpr ⟨hb₁, hb₂⟩
  rw [remove_eq, herase]
  refine h.replace ?_ ?_ ?_ (hnd.sublist hsub) (fun h₀ => hnull (hsub.subset h₀)) ?_ ?_
  · refine (hlinks.remove hnd hnull).congr (fun z hz => ?_) (fun z hz => ?_)
    · exact update_of_ne (ne_of_mem_of_not_mem hz hbl) ..
    · exact update_of_ne (ne_of_mem_of_not_mem hz hbl) ..
  · cases l₁ with
    | nil => simp [hprev, hnext]
    | cons c l₁ =>
      have hne : f.freePrev b ≠ 0 := by
        rw [hprev]
        exact getLastD_ne (fun h₀ => hnull (mem_append_left _ h₀)) (cons_ne_nil _ _)
      rw [if_neg hne, h.heads i, hm]
      rfl
  · intro j hj
    split
    next => exact update_of_ne hj ..
    next => rfl
  · intro z hz
    rw [hm]
    exact Or.inl (hsub.subset hz)
  · intro j z hj hz
    have hzb : z ≠ b := by
      rintro rfl
      exact hj (h.apart hz hb)
    have hp : f.freePrev b ≠ 0 → f.freePrev b ∈ m i := by
      rw [hprev, hm]
      exact fun hne => mem_append_left _ (getLastD_mem hne)
    have hn : f.freeNext b ≠ 0 → f.freeNext b ∈ m i := by
      rw [hnext, hm]
      exact fun hne => mem_append_right _ (mem_cons_of_mem _ (headD_mem hne))
    exact ⟨(update_of_ne hzb ..).trans (setAt_frame _ (h.ne_of_other hj hz hn)),
      (update_of_ne hzb ..).trans (setAt_frame _ (h.ne_of_other hj hz hp))⟩

end Bins

structure SmallCaches.Holds (c : SmallCaches) (m : Cpu × ℕ → List ℕ) : Prop where
  links : ∀ k, Sll 0 c.itemNext (m k)
  head : ∀ k, c.head k = (m k).headD 0
  count : ∀ k, c.count k = (m k).length
  limit : ∀ k, (m k).length ≤ smallCacheLimit
  nodup : ∀ k, (m k).Nodup
  nonnull : ∀ k, 0 ∉ m k
  apart : Apart m

section Caches

variable {c : SmallCaches} {m : Cpu × ℕ → List ℕ} {k : Cpu × ℕ} {p : ℕ} {rest : List ℕ}

theorem SmallCaches.Holds.head_eq (h : c.Holds m) (hp : c.head k ≠ 0) :
    ∃ rest, m k = c.head k :: rest := by
  rw [h.head k] at hp ⊢
  cases hm : m k with
  | nil => exact absurd (by rw [hm]; rfl) hp
  | cons p rest => exact ⟨rest, rfl⟩

theorem SmallCaches.Holds.replace (h : c.Holds m) {c' : SmallCaches} {l : List ℕ}
    (hlinks : Sll 0 c'.itemNext l) (hhead : c'.head k = l.headD 0) (hcount : c'.count k = l.length)
    (hothers : ∀ k', k' ≠ k → c'.head k' = c.head k' ∧ c'.count k' = c.count k')
    (hlim : l.length ≤ smallCacheLimit) (hnd : l.Nodup) (hnull : 0 ∉ l)
    (hnew : ∀ z ∈ l, z ∈ m k ∨ ∀ k', z ∉ m k')
    (hframe : ∀ k' z, k' ≠ k → z ∈ m k' → c'.itemNext z = c.itemNext z) :
    c'.Holds (update m k l) := by
  have hoff := Function.forall_update_iff m (a := k) (b := l)
  refine ⟨(hoff fun _ l => Sll 0 _ l).mpr ⟨hlinks, fun k' hk => ?_⟩,
    (hoff fun _ l => _ = l.headD 0).mpr ⟨hhead, fun k' hk => ?_⟩,
    (hoff fun _ l => _ = l.length).mpr ⟨hcount, fun k' hk => ?_⟩,
    (hoff fun _ l => l.length ≤ smallCacheLimit).mpr ⟨hlim, fun k' _ => h.limit k'⟩,
    (hoff fun _ l => l.Nodup).mpr ⟨hnd, fun k' _ => h.nodup k'⟩,
    (hoff fun _ l => 0 ∉ l).mpr ⟨hnull, fun k' _ => h.nonnull k'⟩, h.apart.update hnew⟩
  · exact (h.links k').congr fun z hz => hframe k' z hk hz
  · rw [(hothers k' hk).1, h.head k']
  · rw [(hothers k' hk).2, h.count k']

theorem SmallCaches.Holds.pop (h : c.Holds m) (hm : m k = p :: rest) :
    (c.pop k).Holds (update m k rest) := by
  have hlinks := h.links k
  have hlim := h.limit k
  have hnd := h.nodup k
  have hcount := h.count k
  have hhead := h.head k
  rw [hm] at hlinks hlim hnd hcount hhead
  obtain ⟨hnext, hlinks⟩ := sll_cons.mp hlinks
  refine h.replace hlinks ?_ ?_ (fun k' hk => ?_) (Nat.le_of_succ_le hlim)
    (nodup_cons.mp hnd).2 (fun h₀ => ?_) (fun z hz => ?_) (fun _ _ _ _ => rfl)
  · rw [← hnext]
    exact (update_self ..).trans (congrArg c.itemNext hhead)
  · exact (update_self ..).trans (by rw [hcount]; rfl)
  · exact ⟨update_of_ne hk .., update_of_ne hk ..⟩
  · exact h.nonnull k (hm ▸ mem_cons_of_mem _ h₀)
  · exact Or.inl (hm ▸ mem_cons_of_mem _ hz)

theorem SmallCaches.Holds.push (h : c.Holds m) (k : Cpu × ℕ) (hp : ∀ k, p ∉ m k) (hp₀ : p ≠ 0)
    (hlim : c.count k < smallCacheLimit) : (c.push k p).Holds (update m k (p :: m k)) := by
  have hframe : ∀ k' z, z ∈ m k' → (c.push k p).itemNext z = c.itemNext z := by
    intro k' z hz
    exact update_of_ne (ne_of_mem_of_not_mem hz (hp k')) ..
  rw [h.count k] at hlim
  refine h.replace (sll_cons.mpr ⟨?_, (h.links k).congr (hframe k)⟩) (update_self ..) ?_
    (fun k' hk => ?_) hlim (nodup_cons.mpr ⟨hp k, h.nodup k⟩) (fun h₀ => ?_) (fun z hz => ?_)
    (fun k' z _ => hframe k' z)
  · rw [← h.head k]
    exact update_self ..
  · rw [length_cons, ← h.count k]
    exact update_self ..
  · exact ⟨update_of_ne hk .., update_of_ne hk ..⟩
  · rcases mem_cons.mp h₀ with h₀ | h₀
    · exact hp₀ h₀.symm
    · exact h.nonnull k h₀
  · rcases mem_cons.mp hz with rfl | hz
    · exact Or.inr hp
    · exact Or.inl hz

end Caches

end Kyronix.Mm
