import Kyronix.Errno
import Kyronix.Fs.Tree

/-! Directory listings: `fd_getdents64` (`vfs.c`) and the directories that `procfs_getdents64` lists
in its place. A buffer is the records put into it, each with its offset. -/
namespace Kyronix.Fs.Getdents

open List

inductive DType
  | unknown
  | chr
  | dir
  | reg
  | lnk
deriving DecidableEq

structure Dirent where
  ino : ℕ
  type : DType
  name : Text
  off : ℕ
deriving DecidableEq

structure Child where
  ino : ℕ
  type : VType
  name : Text
  short : name.length ≤ 255

/-- Which loop lists a directory: that of `fd_getdents64`, or those of `/proc`, `/proc/self/fd` and
`/dev/fd`, with the processes the caller sees and its descriptors. -/
inductive Kind
  | tree
  | proc (pids : List ℕ)
  | fds (fds : List ℕ)
deriving DecidableEq

structure Dir where
  kind : Kind
  ino : ℕ
  parent : ℕ
  children : List Child

structure Out where
  recs : List (ℕ × Dirent)
  done : ℕ

def reclen (name : Text) : ℕ := (19 + (name.length + 1) + 7) / 8 * 8 % 2 ^ 16

def emitDirent (count : ℕ) (o : Out) (r : Dirent) : Option Out :=
  if o.done + reclen r.name ≤ count then
    some ⟨o.recs ++ [(o.done, r)], o.done + reclen r.name⟩
  else none

def emitFrom (count skip : ℕ) (o : Out) (i : ℕ) : List (ℕ → Dirent) → Out × ℕ
  | [] => (o, i)
  | r :: l =>
    if i < skip then emitFrom count skip o (i + 1) l
    else match emitDirent count o (r (i + 1)) with
      | none => (o, i + 1)
      | some o => emitFrom count skip o (i + 1) l

def Child.dtype (c : Child) : DType :=
  match c.type with
  | .dir => .dir
  | .reg => .reg
  | .sym => .lnk
  | .chr => .chr
  | .sock => .unknown

def Child.procDtype (c : Child) : DType :=
  match c.type with
  | .dir => .dir
  | .chr => .chr
  | .sym => .lnk
  | .reg | .sock => .reg

def isNumeric (name : Text) : Bool := name ≠ [] && name.all Char.isDigit

/-! Entries, up to the offset that their index gives them. -/

def Child.entry (c : Child) (off : ℕ) : Dirent := ⟨c.ino, c.dtype, c.name, off⟩

def Child.procEntry (c : Child) (off : ℕ) : Dirent := ⟨c.ino, c.procDtype, c.name, off⟩

def pidEntry (pid off : ℕ) : Dirent := ⟨1000000 + pid, .dir, Nat.toDigits 10 pid, off⟩

def fdEntry (fd off : ℕ) : Dirent := ⟨100000 + fd, .lnk, Nat.toDigits 10 fd, off⟩

variable (d : Dir)

def dot (off : ℕ) : Dirent := ⟨d.ino, .dir, ['.'], off⟩

def dotDot (off : ℕ) : Dirent := ⟨d.parent, .dir, ['.', '.'], off⟩

def emitDots (pos count : ℕ) : Out :=
  let o : Out := ⟨[], 0⟩
  let o := if pos = 0 then (emitDirent count o (dot d 1)).getD o else o
  if pos ≤ 1 then (emitDirent count o (dotDot d 2)).getD o else o

def fill (pos count : ℕ) : Out :=
  let o := emitDots d pos count
  match d.kind with
  | .tree => (emitFrom count pos o 2 (d.children.map Child.entry)).1
  | .proc pids =>
    let (o, i) := emitFrom count pos o 2
      ((d.children.filter fun c => !isNumeric c.name).map Child.procEntry)
    (emitFrom count pos o i (pids.map pidEntry)).1
  | .fds fds => (emitFrom count pos o 2 (fds.map fdEntry)).1

structure Reply where
  ret : ℤ
  recs : List (ℕ × Dirent)

def fdGetdents64 (pos count : ℕ) : Reply × ℕ :=
  if count = 0 then (⟨-einval, []⟩, pos)
  else
    let o := fill d pos count
    (⟨(BitVec.ofNat 32 o.done).toInt, o.recs⟩, pos + o.recs.length)

def number (i : ℕ) : List (ℕ → Dirent) → List Dirent
  | [] => []
  | r :: l => r (i + 1) :: number (i + 1) l

def all : List Dirent := number 0 (dot d :: dotDot d :: d.children.map Child.entry)

def bytes (l : List Dirent) : ℕ := (l.map fun r => reclen r.name).sum

def session (counts : List ℕ) : ℕ × List Dirent :=
  counts.foldl (fun s count =>
    let (r, pos) := fdGetdents64 d s.1 count
    (pos, s.2 ++ r.recs.map Prod.snd)) (0, [])

def reply (counts : List ℕ) (count : ℕ) : Reply :=
  (fdGetdents64 d (session d counts).1 count).1

def Roomy (counts : List ℕ) : Prop :=
  ∀ pre count, pre ++ [count] <+: counts →
    0 < count ∧ ∀ r, (all d)[(session d pre).1]? = some r → reclen r.name ≤ count

structure Enumerates (d : Dir) (counts : List ℕ) : Prop where
  placed : ∀ pre count, pre ++ [count] <+: counts →
    ∀ x ∈ (reply d pre count).recs, 8 ∣ x.1 ∧ x.1 + reclen x.2.name ≤ count
  ret : ∀ pre count, pre ++ [count] <+: counts →
    (reply d pre count).ret = bytes ((reply d pre count).recs.map Prod.snd)
  once : (session d counts).2 <+: all d
  zero : ∀ pre count, pre ++ [count] <+: counts → (reply d pre count).ret = 0 →
    (session d pre).2 = all d
  complete : (all d).length ≤ counts.length → (session d counts).2 = all d

variable {d : Dir} {o : Out} {l l' : List Dirent} {r : Dirent} {pos count skip i k : ℕ}
  {counts : List ℕ}

theorem mem_number {es : List (ℕ → Dirent)} (h : r ∈ number i es) : ∃ e ∈ es, ∃ j, r = e j := by
  induction es generalizing i with
  | nil => cases h
  | cons e es ih =>
    rcases mem_cons.mp h with rfl | h
    · exact ⟨e, mem_cons_self, i + 1, rfl⟩
    · obtain ⟨e', he, hj⟩ := ih h
      exact ⟨e', mem_cons_of_mem e he, hj⟩

theorem reclen_all (h : r ∈ all d) : 8 ∣ reclen r.name ∧ 24 ≤ reclen r.name := by
  have hshort : r.name.length ≤ 255 := by
    obtain ⟨e, he, j, rfl⟩ := mem_number h
    rcases mem_cons.mp he with rfl | he
    · exact (by decide : 1 ≤ 255)
    rcases mem_cons.mp he with rfl | he
    · exact (by decide : 2 ≤ 255)
    · obtain ⟨c, -, rfl⟩ := mem_map.mp he
      exact c.short
  unfold reclen
  constructor <;> omega

def pack (count : ℕ) (o : Out) : List Dirent → Out
  | [] => o
  | r :: l =>
    match emitDirent count o r with
    | none => o
    | some o => pack count o l

theorem emitFrom_eq (es : List (ℕ → Dirent)) :
    (emitFrom count skip o i es).1 = pack count o ((number i es).drop (skip - i)) := by
  induction es generalizing o i with
  | nil => simp [emitFrom, number, pack]
  | cons e es ih =>
    rw [emitFrom, number]
    split
    · rw [ih, show skip - i = skip - (i + 1) + 1 by omega, drop_succ_cons]
    · rw [show skip - i = 0 by omega, drop_zero, pack]
      cases emitDirent count o (e (i + 1)) with
      | none => rfl
      | some o =>
        rw [ih, show skip - (i + 1) = 0 by omega, drop_zero]

theorem pack_full (hfull : count < o.done + 24) (hl : ∀ r ∈ l, 24 ≤ reclen r.name) :
    pack count o l = o := by
  cases l with
  | nil => rfl
  | cons r l =>
    have := hl r mem_cons_self
    rw [pack, emitDirent, if_neg (by omega)]

theorem pack_getD (hr : reclen r.name = 24) (hl : ∀ r ∈ l, 24 ≤ reclen r.name) :
    pack count ((emitDirent count o r).getD o) l = pack count o (r :: l) := by
  rw [pack]
  unfold emitDirent
  split
  · rfl
  · next hfull =>
    rw [hr] at hfull
    exact pack_full (o := o) (by omega) hl

theorem fill_eq (hk : d.kind = .tree) (pos count : ℕ) :
    fill d pos count = pack count ⟨[], 0⟩ ((all d).drop pos) := by
  have hlong : ∀ k, ∀ r ∈ (all d).drop k, 24 ≤ reclen r.name :=
    fun k r hr => (reclen_all (mem_of_mem_drop hr)).2
  have hdot : reclen (dot d 1).name = 24 := (by decide : reclen ['.'] = 24)
  have hdotDot : reclen (dotDot d 2).name = 24 := (by decide : reclen ['.', '.'] = 24)
  unfold fill
  rw [hk]
  dsimp only
  rw [emitFrom_eq]
  unfold emitDots
  -- the first two entries are behind the position one by one
  rcases pos with _ | _ | pos <;> dsimp only
  · rw [if_pos rfl, if_pos (Nat.zero_le 1)]
    exact (pack_getD hdotDot (hlong 2)).trans (pack_getD hdot (hlong 1))
  · rw [if_neg (Nat.succ_ne_zero 0), if_pos (Nat.le_refl 1)]
    exact pack_getD hdotDot (hlong 2)
  · rw [if_neg (Nat.succ_ne_zero _), if_neg (show ¬pos + 1 + 1 ≤ 1 by omega)]
    rfl

structure Packed (count : ℕ) (l : List Dirent) (o : Out) : Prop where
  recs : o.recs.map Prod.snd = l
  done : o.done = bytes l
  aligned : 8 ∣ o.done
  placed : ∀ x ∈ o.recs, 8 ∣ x.1 ∧ x.1 + reclen x.2.name ≤ count

theorem bytes_append : bytes (l ++ l') = bytes l + bytes l' := by
  rw [bytes, map_append, sum_append]
  rfl

theorem Packed.emit (h : Packed count l o) (hr : 8 ∣ reclen r.name)
    (hfits : o.done + reclen r.name ≤ count) :
    Packed count (l ++ [r]) ⟨o.recs ++ [(o.done, r)], o.done + reclen r.name⟩ := by
  refine ⟨?_, ?_, h.aligned.add hr, ?_⟩
  · rw [map_append, h.recs]
    rfl
  · rw [bytes_append, ← h.done]
    rfl
  · intro x hx
    rcases mem_append.mp hx with hx | hx
    · exact h.placed x hx
    · rw [mem_singleton.mp hx]
      exact ⟨h.aligned, hfits⟩

theorem Packed.pack (h : Packed count l o) (rest : List Dirent)
    (hrest : ∀ r ∈ rest, 8 ∣ reclen r.name) :
    ∃ k, k ≤ rest.length ∧ Packed count (l ++ rest.take k) (pack count o rest) ∧
      ∀ r, rest[k]? = some r → count < (Getdents.pack count o rest).done + reclen r.name := by
  induction rest generalizing l o with
  | nil => exact ⟨0, le_rfl, by simpa [Getdents.pack] using h, nofun⟩
  | cons r rest ih =>
    rw [Getdents.pack]
    by_cases hfits : o.done + reclen r.name ≤ count
    · rw [emitDirent, if_pos hfits]
      obtain ⟨k, hk, hpacked, hnext⟩ := ih (h.emit (hrest r mem_cons_self) hfits)
        fun x hx => hrest x (mem_cons_of_mem r hx)
      refine ⟨k + 1, Nat.succ_le_succ hk, ?_, hnext⟩
      simpa using hpacked
    · rw [emitDirent, if_neg hfits]
      refine ⟨0, Nat.zero_le _, by simpa using h, ?_⟩
      rintro x hx
      cases hx
      exact Nat.lt_of_not_le hfits

theorem call_spec (hk : d.kind = .tree) (hcount : 0 < count) (pos : ℕ) :
    ∃ k ≤ ((all d).drop pos).length,
      Packed count (((all d).drop pos).take k) (fill d pos count) ∧
      (fdGetdents64 d pos count).1 =
        ⟨(BitVec.ofNat 32 (fill d pos count).done).toInt, (fill d pos count).recs⟩ ∧
      (fdGetdents64 d pos count).2 = pos + k ∧
      ∀ r, (all d)[pos + k]? = some r → count < (fill d pos count).done + reclen r.name := by
  obtain ⟨k, hle, hpacked, hnext⟩ :=
    (⟨rfl, rfl, dvd_zero 8, nofun⟩ : Packed count [] ⟨[], 0⟩).pack ((all d).drop pos)
      fun r hr => (reclen_all (mem_of_mem_drop hr)).1
  rw [← fill_eq hk] at hpacked hnext
  have hlen : (fill d pos count).recs.length = k := by
    rw [← length_map (f := Prod.snd), hpacked.recs, nil_append, length_take]
    omega
  refine ⟨k, hle, hpacked, ?_, ?_, ?_⟩
  · rw [fdGetdents64, if_neg (by omega)]
  · rw [fdGetdents64, if_neg (by omega)]
    exact congrArg (pos + ·) hlen
  · rw [← List.getElem?_drop]
    exact hnext

theorem call_advances (hk : d.kind = .tree) (hcount : 0 < count) (hlt : pos < (all d).length)
    (hroom : ∀ r, (all d)[pos]? = some r → reclen r.name ≤ count) :
    0 < (fill d pos count).done ∧ pos < (fdGetdents64 d pos count).2 := by
  obtain ⟨k, -, hpacked, -, hpos, hnext⟩ := call_spec hk hcount pos
  have hr := List.getElem?_eq_getElem hlt
  have hlong := (reclen_all (getElem_mem hlt)).2
  rw [hpacked.done] at hnext ⊢
  cases k with
  | zero =>
    have hno := hnext _ hr
    have hyes := hroom _ hr
    rw [take_zero, bytes, map_nil, sum_nil] at hno
    omega
  | succ k =>
    rw [drop_eq_getElem_cons hlt, take_succ_cons, bytes, map_cons, sum_cons]
    omega

theorem session_concat (pre : List ℕ) (count : ℕ) :
    session d (pre ++ [count]) =
      ((fdGetdents64 d (session d pre).1 count).2,
        (session d pre).2 ++ (reply d pre count).recs.map Prod.snd) := by
  rw [session, foldl_append]
  rfl

theorem Roomy.of_concat (h : Roomy d (counts ++ [count])) : Roomy d counts :=
  fun pre c hpre => h pre c (hpre.trans (prefix_append counts [count]))

theorem session_spec (hk : d.kind = .tree) (h : Roomy d counts) :
    (session d counts).1 ≤ (all d).length ∧
      (session d counts).2 = (all d).take (session d counts).1 ∧
      min counts.length (all d).length ≤ (session d counts).1 := by
  induction counts using List.reverseRecOn with
  | nil => exact ⟨Nat.zero_le _, rfl, by simp [session]⟩
  | append_singleton counts count ih =>
    obtain ⟨hle, hsofar, hprogress⟩ := ih h.of_concat
    obtain ⟨hcount, hroom⟩ := h counts count prefix_rfl
    obtain ⟨k, hk', hpacked, hreply, hpos, hnext⟩ := call_spec hk hcount (session d counts).1
    rw [length_drop] at hk'
    rw [session_concat, hpos, reply, hreply, hpacked.recs, hsofar, length_append,
      length_singleton]
    refine ⟨by omega, take_add.symm, ?_⟩
    rcases Nat.lt_or_ge (session d counts).1 (all d).length with hlt | hge
    · have hmore := (call_advances hk hcount hlt hroom).2
      omega
    · omega

theorem toInt_of_lt {n : ℕ} (h : n < 2 ^ 31) : (BitVec.ofNat 32 n).toInt = n := by
  have hn : (BitVec.ofNat 32 n).toNat = n := by
    rw [BitVec.toNat_ofNat]
    exact Nat.mod_eq_of_lt (by omega)
  rw [BitVec.toInt_eq_toNat_of_lt (by omega), hn]

theorem bytes_window_le (pos k : ℕ) : bytes ((l.drop pos).take k) ≤ bytes l := by
  have hdrop : bytes (l.take pos) + bytes (l.drop pos) = bytes l := by
    rw [← bytes_append, take_append_drop]
  have htake : bytes ((l.drop pos).take k) + bytes ((l.drop pos).drop k) = bytes (l.drop pos) := by
    rw [← bytes_append, take_append_drop]
  omega

theorem enumerates (hk : d.kind = .tree) (hbytes : bytes (all d) < 2 ^ 31) (h : Roomy d counts) :
    Enumerates d counts := by
  have hpre : ∀ {pre count}, pre ++ [count] <+: counts → Roomy d pre := fun hp pre c hpre =>
    h pre c (hpre.trans ((prefix_append _ _).trans hp))
  have hret : ∀ pre count, pre ++ [count] <+: counts →
      (reply d pre count).ret = bytes ((reply d pre count).recs.map Prod.snd) := by
    intro pre count hp
    obtain ⟨k, -, hpacked, hreply, -⟩ := call_spec hk (h pre count hp).1 (session d pre).1
    have hle := bytes_window_le (l := all d) (session d pre).1 k
    rw [reply, hreply, hpacked.recs, hpacked.done]
    exact toInt_of_lt (by omega)
  obtain ⟨hle, hsofar, hprogress⟩ := session_spec hk h
  refine ⟨?_, hret, hsofar ▸ take_prefix .., ?_, ?_⟩
  · intro pre count hp
    obtain ⟨k, -, hpacked, hreply, -⟩ := call_spec hk (h pre count hp).1 (session d pre).1
    rw [reply, hreply]
    exact hpacked.placed
  · intro pre count hp hzero
    obtain ⟨hcount, hroom⟩ := h pre count hp
    obtain ⟨k, -, hpacked, hreply, -, hnext⟩ := call_spec hk hcount (session d pre).1
    have hdone : (fill d (session d pre).1 count).done = 0 := by
      rw [hret pre count hp, reply, hreply, hpacked.recs, ← hpacked.done] at hzero
      exact_mod_cast hzero
    obtain ⟨hle, hsofar, -⟩ := session_spec hk (hpre hp)
    rcases Nat.lt_or_ge (session d pre).1 (all d).length with hlt | hge
    · have hmore := (call_advances hk hcount hlt hroom).1
      omega
    · rw [hsofar, take_of_length_le hge]
  · intro hlen
    rw [hsofar, show (session d counts).1 = (all d).length by omega, take_length]

theorem roomy_of_le (h : ∀ count ∈ counts, ∀ r ∈ all d, reclen r.name ≤ count) :
    Roomy d counts := by
  intro pre count hp
  have hle := h count (hp.subset (mem_append_right pre mem_cons_self))
  have hdot := hle (dot d 1) mem_cons_self
  have hlong := (reclen_all (d := d) (r := dot d 1) mem_cons_self).2
  exact ⟨by omega, fun r hr => hle r (mem_of_getElem? hr)⟩

theorem fill_all (hk : d.kind = .tree) (hpos : 0 < bytes (all d)) :
    (fill d 0 (bytes (all d))).done = bytes (all d) := by
  obtain ⟨k, hle, hpacked, -, -, hnext⟩ := call_spec hk hpos 0
  rw [drop_zero] at hle hpacked
  rcases Nat.lt_or_ge k (all d).length with hlt | hge
  · have hmore := hnext _ ((congrArg _ (Nat.zero_add k)).trans (List.getElem?_eq_getElem hlt))
    have hsum : bytes ((all d).take k) + (reclen (all d)[k].name + bytes ((all d).drop (k + 1))) =
        bytes (all d) := by
      conv_rhs => rw [← take_append_drop k (all d), drop_eq_getElem_cons hlt]
      rw [bytes_append]
      rfl
    rw [hpacked.done] at hmore
    omega
  · rw [hpacked.done, take_of_length_le hge]

theorem getdents_enumerates_iff (d : Dir) (hk : d.kind = .tree) :
    (∀ counts, Roomy d counts → Enumerates d counts) ↔ bytes (all d) < 2 ^ 31 := by
  constructor
  · intro h
    have hle : ∀ r ∈ all d, reclen r.name ≤ bytes (all d) := fun r hr =>
      single_le_sum (fun _ _ => Nat.zero_le _) _ (mem_map_of_mem hr)
    have hpos : 0 < bytes (all d) := by
      have hdot := hle (dot d 1) mem_cons_self
      have hlong := (reclen_all (d := d) (r := dot d 1) mem_cons_self).2
      omega
    -- one buffer for everything: the result is the number of bytes as an `int`
    have hroomy : Roomy d [bytes (all d)] := roomy_of_le fun count hcount =>
      mem_singleton.mp hcount ▸ hle
    have hret := (h _ hroomy).ret [] _ prefix_rfl
    obtain ⟨k, -, hpacked, hreply, -⟩ := call_spec hk hpos 0
    rw [reply, show (session d []).1 = 0 from rfl, hreply, hpacked.recs, ← hpacked.done,
      fill_all hk hpos] at hret
    dsimp only at hret
    have hint := (BitVec.ofNat 32 (bytes (all d))).toInt_lt
    omega
  · intro hbytes counts hroomy
    exact enumerates hk hbytes hroomy

def usual (kind : Kind) : Dir :=
  ⟨kind, 7, 1, [⟨8, .reg, ['v', 'e', 'r', 's', 'i', 'o', 'n'], by decide⟩,
    ⟨9, .reg, ['s', 't', 'a', 't'], by decide⟩]⟩

theorem getdents_enumerates_usual : (usual .tree).kind = .tree ∧
    ∀ counts, Roomy (usual .tree) counts → Enumerates (usual .tree) counts :=
  ⟨rfl, (getdents_enumerates_iff (usual .tree) rfl).mpr (by decide)⟩

/-- In `/proc` the name that does not fit is passed over for a process, which is listed twice. -/
theorem proc_skips_child : Roomy (usual (.proc [1])) [72, 72, 72] ∧
    (session (usual (.proc [1])) [72, 72, 72]).2.map Dirent.name =
      [['.'], ['.', '.'], ['1'], ['s', 't', 'a', 't'], ['1']] ∧
    ¬ Enumerates (usual (.proc [1])) [72, 72, 72] := by
  refine ⟨roomy_of_le (by decide), by decide, fun h => ?_⟩
  exact absurd h.once (by decide)

end Kyronix.Fs.Getdents
