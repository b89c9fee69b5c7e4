import Kyronix.Fs.RamFile
import Kyronix.Mm.ShmemRuns

/-! Writes through descriptors with `O_APPEND` (`vfs.c`, `fdctl.c`). The flag moves the offset when
a file is opened and not afterwards. -/
namespace Kyronix.Fs.Append

open Lib.ByteFile Lib.Run Function RamNode

section

variable {σ : Type}

/-- What a write of `bs` at `pos` leaves. One that fails may have changed some of the bytes it was
for. -/
def Stored (size : σ → ℕ) (byte : σ → ℕ → UInt8) (s s' : σ) (pos : ℕ) (bs : Bytes) :
    Except ℤ ℕ → Prop
  | .ok r => r ≤ bs.length ∧ size s' = max (size s) (pos + r) ∧
      (∀ i < r, byte s' (pos + i) = Lib.ByteFile.byte bs i) ∧
      ∀ i < size s, i < pos ∨ pos + r ≤ i → byte s' i = byte s i
  | .error _ => size s' = size s ∧
      ∀ i < size s, i < pos ∨ pos + bs.length ≤ i → byte s' i = byte s i

end

/-- A kind of regular file, with the write that `fd_write_dispatch` calls; `ε` is what memory and
devices answer. -/
structure Backing (σ ε : Type) where
  size : σ → ℕ
  byte : σ → ℕ → UInt8
  write : σ → ℕ → Bytes → ε → Except ℤ ℕ × σ
  Ok : σ → Prop
  ok_write : ∀ s pos bs e, Ok s → pos ≤ size s → bs ≠ [] → bs.length < 2 ^ 47 →
    Ok (write s pos bs e).2
  stored : ∀ s pos bs e, Ok s → pos ≤ size s → bs ≠ [] → bs.length < 2 ^ 47 →
    Stored size byte s (write s pos bs e).2 pos bs (write s pos bs e).1

def ramWrite (n : RamNode) (pos : ℕ) (bs : Bytes) (mem : Option (ℕ → UInt8)) :
    Except ℤ ℕ × RamNode :=
  if pos > int64Max ∨ bs.length > int64Max - pos then (.error (-efbig), n)
  else match n.writeAt pos bs mem with
    | .error e => (.error e, n)
    | .ok n => (.ok bs.length, n)

theorem stored_ramWrite (n : RamNode) (pos : ℕ) (bs : Bytes) (mem : Option (ℕ → UInt8)) :
    Stored size data n (ramWrite n pos bs mem).2 pos bs
      (ramWrite n pos bs mem).1 := by
  unfold ramWrite
  split
  · exact ⟨rfl, fun _ _ _ => rfl⟩
  split
  · exact ⟨rfl, fun _ _ _ => rfl⟩
  next n' hw =>
  obtain ⟨m, hreserve, rfl⟩ :
      ∃ m, n.reserve (pos + bs.length) mem = .ok m ∧ m.store pos bs = n' := by
    unfold writeAt at hw
    cases hm : n.reserve (pos + bs.length) mem with
    | error e =>
      rw [hm] at hw
      cases hw
    | ok m =>
      rw [hm] at hw
      exact ⟨m, rfl, Except.ok.inj hw⟩
  have hm : m.size = n.size ∧ ∀ i < n.size, m.data i = n.data i := by
    unfold reserve at hreserve
    split at hreserve
    · split at hreserve
      · cases hreserve
      split at hreserve
      · cases hreserve
      · cases hreserve
        exact ⟨rfl, fun i hi => if_pos hi⟩
    · cases hreserve
      exact ⟨rfl, fun _ _ => rfl⟩
  refine ⟨le_rfl, ?_, fun i hi => ?_, fun i hi hout => ?_⟩
  · exact congrArg (max · _) hm.1
  · unfold store
    dsimp only
    rw [if_pos (by omega), Nat.add_sub_cancel_left]
  · unfold store
    dsimp only
    rw [if_neg (by omega), hm.2 i hi]

def ramBacking : Backing RamNode (Option (ℕ → UInt8)) where
  size := size
  byte := data
  write := ramWrite
  Ok _ := True
  ok_write _ _ _ _ _ _ _ _ := trivial
  stored n pos bs mem _ _ _ _ := stored_ramWrite n pos bs mem

section Shmem

open Mm

def shmemWrite (o : Shmem.Obj) (pos : ℕ) (bs : Bytes) (mem : Shmem.Mem) : Except ℤ ℕ × Shmem.Obj :=
  match o.write bs pos mem with
  | some (.ok r, o) => (.ok r, o)
  | some (.error e, o) => (.error (-e), o)
  | none => (.error (-efault), o)

theorem stored_shmemWrite {o : Shmem.Obj} {pos : ℕ} {bs : Bytes} (mem : Shmem.Mem) (hs : o.Sound)
    (hpos : pos ≤ o.size) (hbs : bs ≠ []) (hlen : bs.length < 2 ^ 47) :
    (shmemWrite o pos bs mem).2.Sound ∧
      Stored Shmem.Obj.size Shmem.Obj.byte o (shmemWrite o pos bs mem).2 pos bs
        (shmemWrite o pos bs mem).1 := by
  have hsize : o.size ≤ 4096 * Shmem.shmemMaxPages := by
    have hspan := hs.spanned.trans hs.bounded
    unfold Shmem.Obj.span at hspan
    omega
  have hmax : 4096 * Shmem.shmemMaxPages + 2 ^ 47 ≤ 2 ^ 64 - 4096 := by decide
  have hfits : pos + bs.length ≤ 2 ^ 64 - 4096 := by omega
  obtain ⟨r, o', room, hwrite, hs', -, href⟩ :=
    Shmem.Obj.write_refines mem hs (.inl hfits)
  have hbyte : ∀ i < o.size, byte o.contents i = o.byte i := fun i hi => by
    rw [Shmem.Obj.byte_contents, if_pos hi]
  have hbyte' : ∀ i < o'.size, byte o'.contents i = o'.byte i := fun i hi => by
    rw [Shmem.Obj.byte_contents, if_pos hi]
  have hlength : bs.length ≠ 0 := (List.length_pos_iff.mpr hbs).ne'
  unfold shmemWrite
  rw [hwrite]
  rcases Shmem.Ref.write_cases o.abs hlength pos room with ⟨e, he⟩ | ⟨hok, hgrown, hbytes⟩
  · rw [href] at he
    obtain ⟨hr, habs⟩ := Prod.mk.inj he
    have hcontents : o'.contents = o.contents := congrArg Shmem.Ref.bytes habs
    have hsame : o'.size = o.size := by
      rw [← Shmem.Obj.length_contents, hcontents, Shmem.Obj.length_contents]
    rw [hr]
    refine ⟨hs', hsame, fun i hi _ => ?_⟩
    rw [← hbyte' i (hsame ▸ hi), hcontents, hbyte i hi]
  · rw [href] at hok hgrown hbytes
    change r = _ at hok
    change o'.contents.length = _ at hgrown
    change ∀ i, byte o'.contents i = _ at hbytes
    have hsize' : o'.size = max o.size (pos + bs.length) := by
      rw [← Shmem.Obj.length_contents, hgrown]
      exact congrArg (max · _) o.length_contents
    rw [hok]
    refine ⟨hs', le_rfl, hsize', fun i hi => ?_, fun i hi hout => ?_⟩
    · rw [← hbyte' _ (by omega), hbytes, if_pos (by omega), Nat.add_sub_cancel_left]
    · rw [← hbyte' _ (by omega), hbytes, if_neg (by omega)]
      exact hbyte i hi

def shmemBacking : Backing Shmem.Obj Shmem.Mem where
  size := Shmem.Obj.size
  byte := Shmem.Obj.byte
  write := shmemWrite
  Ok := Shmem.Obj.Sound
  ok_write _ _ _ mem hs hpos hbs hlen := (stored_shmemWrite mem hs hpos hbs hlen).1
  stored _ _ _ mem hs hpos hbs hlen := (stored_shmemWrite mem hs hpos hbs hlen).2

end Shmem

structure Desc where
  pos : ℕ
  mode : AccMode
  append : Bool

structure Sys (σ : Type) where
  file : σ
  desc : ℕ → Option Desc

inductive Act (ε : Type)
  | open (d : ℕ) (mode : AccMode) (append : Bool)
  | setFl (d : ℕ) (append : Bool)
  | write (d : ℕ) (bs : Bytes) (readable : Bool) (env : ε)

section

variable {σ ε : Type} (B : Backing σ ε)

variable (s : Sys σ)

def fdOpen (d : ℕ) (mode : AccMode) (append : Bool) : Sys σ :=
  let pos := if append then B.size s.file else 0
  { s with desc := update s.desc d (some ⟨pos, mode, append⟩) }

def fdSetFl (d : ℕ) (append : Bool) : Sys σ :=
  { s with desc := update s.desc d ((s.desc d).map fun f => { f with append := append }) }

def fdWrite (d : ℕ) (bs : Bytes) (readable : Bool) (env : ε) : Except ℤ ℕ × Sys σ :=
  match s.desc d with
  | none => (.error (-ebadf), s)
  | some f =>
    if bs = [] then (.ok 0, s)
    else if readable = false ∨ 2 ^ 47 ≤ bs.length then (.error (-efault), s)
    else if f.mode = .rdonly then (.error (-ebadf), s)
    else match B.write s.file f.pos bs env with
      | (.error e, n) => (.error e, { s with file := n })
      | (.ok r, n) =>
        (.ok r, ⟨n, update s.desc d (some { f with pos := f.pos + r })⟩)

def step : Act ε → Sys σ
  | .open d mode append => fdOpen B s d mode append
  | .setFl d append => fdSetFl s d append
  | .write d bs readable env => (fdWrite B s d bs readable env).2

def count : Act ε → ℕ
  | .write d bs readable env =>
    match (fdWrite B s d bs readable env).1 with
    | .ok r => r
    | .error _ => 0
  | _ => 0

def written (s : Sys σ) : List (Act ε) → ℕ
  | [] => 0
  | a :: as => count B s a + written (step B s a) as

def Appends : Act ε → Prop
  | .write d .. => ∃ f, s.desc d = some f ∧ f.append = true
  | _ => False

def Extends (a : Act ε) : Prop :=
  B.size (step B s a).file = B.size s.file + count B s a ∧
    (∀ i < B.size s.file, B.byte (step B s a).file i = B.byte s.file i) ∧
    ∀ d bs readable env, a = .write d bs readable env → ∀ i < count B s a,
      B.byte (step B s a).file (B.size s.file + i) = byte bs i

def AtEnd : Act ε → Prop
  | .write d .. => ∀ f, s.desc d = some f → f.pos = B.size s.file
  | _ => True

/-- It is not another description that is written through, and this one is not opened anew. -/
def Undisturbed (d : ℕ) : Act ε → Prop
  | .open d' .. => d' ≠ d
  | .setFl .. => True
  | .write d' .. => d' = d

/-- The description that `a` writes through was opened for appending, and nothing was written
through another one since. -/
def Alone (pre : List (Act ε)) : Act ε → Prop
  | .write d .. => ∃ p₁ mode p₂, pre = p₁ ++ .open d mode true :: p₂ ∧ ∀ b ∈ p₂, Undisturbed d b
  | _ => True

structure Inv (s : Sys σ) : Prop where
  file : B.Ok s.file
  pos : ∀ d f, s.desc d = some f → f.pos ≤ B.size s.file

variable {B} {s : Sys σ}

theorem fdWrite_cases (d : ℕ) (bs : Bytes) (readable : Bool) (env : ε) :
    (count B s (.write d bs readable env) = 0 ∧ step B s (.write d bs readable env) = s) ∨
      ∃ f, s.desc d = some f ∧ bs ≠ [] ∧ bs.length < 2 ^ 47 ∧
        ((∃ e, (B.write s.file f.pos bs env).1 = .error e ∧
            count B s (.write d bs readable env) = 0 ∧
            step B s (.write d bs readable env) = ⟨(B.write s.file f.pos bs env).2, s.desc⟩) ∨
          ∃ r, (B.write s.file f.pos bs env).1 = .ok r ∧
            count B s (.write d bs readable env) = r ∧
            step B s (.write d bs readable env) = ⟨(B.write s.file f.pos bs env).2,
              update s.desc d (some { f with pos := f.pos + r })⟩) := by
  unfold count step
  dsimp only
  generalize hw : fdWrite B s d bs readable env = w
  unfold fdWrite at hw
  split at hw
  · subst hw
    exact .inl ⟨rfl, rfl⟩
  next f hd =>
  iterate 3
    split at hw
    · subst hw
      exact .inl ⟨rfl, rfl⟩
  next hne hlen _ =>
  refine .inr ⟨f, hd, hne, by omega, ?_⟩
  split at hw
  · next e n hn =>
    subst hw
    rw [hn]
    exact .inl ⟨e, rfl, rfl, rfl⟩
  · next r n hn =>
    subst hw
    rw [hn]
    exact .inr ⟨r, rfl, rfl, rfl⟩

variable (h : Inv B s)
include h

theorem Inv.write (d : ℕ) (bs : Bytes) (readable : Bool) (env : ε) :
    Inv B (step B s (.write d bs readable env)) := by
  rcases fdWrite_cases (B := B) (s := s) d bs readable env with
    ⟨-, hstep⟩ | ⟨f, hd, hne, hlen, ⟨e, he, -, hstep⟩ | ⟨r, hr, -, hstep⟩⟩
  · rwa [hstep]
  · have hstored := B.stored _ _ bs env h.file (h.pos d f hd) hne hlen
    rw [he] at hstored
    rw [hstep]
    refine ⟨B.ok_write _ _ bs env h.file (h.pos d f hd) hne hlen, fun d' f' hf' => ?_⟩
    rw [hstored.1]
    exact h.pos d' f' hf'
  · have hstored := B.stored _ _ bs env h.file (h.pos d f hd) hne hlen
    rw [hr] at hstored
    rw [hstep]
    refine ⟨B.ok_write _ _ bs env h.file (h.pos d f hd) hne hlen, fun d' f' hf' => ?_⟩
    rw [hstored.2.1]
    rcases Lib.of_update hf' with ⟨-, ⟨⟩⟩ | ⟨-, hf'⟩
    · exact le_max_right ..
    · exact (h.pos d' f' hf').trans (le_max_left ..)

theorem Inv.step (a : Act ε) : Inv B (step B s a) := by
  cases a with
  | «open» d mode append =>
    refine ⟨h.file, fun d' f' hf' => ?_⟩
    unfold Append.step fdOpen at hf' ⊢
    rcases Lib.of_update hf' with ⟨-, ⟨⟩⟩ | ⟨-, hf'⟩
    · dsimp only
      split
      · exact le_rfl
      · exact Nat.zero_le _
    · exact h.pos d' f' hf'
  | setFl d append =>
    refine ⟨h.file, fun d' f' hf' => ?_⟩
    unfold Append.step fdSetFl at hf' ⊢
    rcases Lib.of_update hf' with ⟨-, hf'⟩ | ⟨-, hf'⟩
    · obtain ⟨f, hf, rfl⟩ := Option.map_eq_some_iff.mp hf'
      exact h.pos d f hf
    · exact h.pos d' f' hf'
  | write d bs readable env => exact h.write d bs readable env

theorem extends_of_atEnd {d : ℕ} {bs : Bytes} {readable : Bool} {env : ε}
    (hend : AtEnd B s (.write d bs readable env)) : Extends B s (.write d bs readable env) := by
  unfold Extends
  rcases fdWrite_cases (B := B) (s := s) d bs readable env with
    ⟨hcount, hstep⟩ | ⟨f, hd, hne, hlen, ⟨e, he, hcount, hstep⟩ | ⟨r, hr, hcount, hstep⟩⟩
  · rw [hcount, hstep]
    exact ⟨rfl, fun _ _ => rfl, fun _ _ _ _ _ i hi => absurd hi (Nat.not_lt_zero i)⟩
  · have hstored := B.stored _ _ bs env h.file (h.pos d f hd) hne hlen
    have hpos := hend f hd
    rw [he] at hstored
    rw [hcount, hstep]
    refine ⟨hstored.1, fun i hi => hstored.2 i hi (.inl (hpos.symm ▸ hi)), ?_⟩
    exact fun _ _ _ _ _ i hi => absurd hi (Nat.not_lt_zero i)
  · have hstored := B.stored _ _ bs env h.file (h.pos d f hd) hne hlen
    have hpos := hend f hd
    rw [hr] at hstored
    obtain ⟨hle, hsize, hnew, hold⟩ := hstored
    rw [hcount, hstep]
    refine ⟨?_, fun i hi => hold i hi (.inl (hpos.symm ▸ hi)), ?_⟩
    · rw [hsize, hpos]
      omega
    · rintro _ _ _ _ heq i hi
      cases heq
      rw [← hpos]
      exact hnew i hi

theorem atEnd_of_extends {d : ℕ} {bs : Bytes} {readable : Bool} {env : ε}
    (hext : Extends B s (.write d bs readable env))
    (hcount : count B s (.write d bs readable env) ≠ 0) :
    AtEnd B s (.write d bs readable env) := by
  intro f hf
  rcases fdWrite_cases (B := B) (s := s) d bs readable env with
    ⟨hzero, -⟩ | ⟨g, hd, hne, hlen, ⟨e, -, hzero, -⟩ | ⟨r, hr, hr', hstep⟩⟩
  · exact absurd hzero hcount
  · exact absurd hzero hcount
  · have hstored := B.stored _ _ bs env h.file (h.pos d g hd) hne hlen
    rw [hr] at hstored
    have hsize := hext.1
    rw [hstep, hstored.2.1, hr'] at hsize
    have hle := h.pos d g hd
    rw [hf] at hd
    cases hd
    omega

theorem Inv.ends {d : ℕ} {a : Act ε} (ha : Undisturbed d a)
    (hd : ∀ f, s.desc d = some f → f.pos = B.size s.file) :
    ∀ f, (Append.step B s a).desc d = some f → f.pos = B.size (Append.step B s a).file := by
  cases a with
  | «open» d' mode append =>
    intro f hf
    exact hd f ((update_of_ne (Ne.symm ha) ..).symm.trans hf)
  | setFl d' append =>
    intro f hf
    rcases Lib.of_update hf with ⟨rfl, hf'⟩ | ⟨-, hf⟩
    · obtain ⟨g, hg, rfl⟩ := Option.map_eq_some_iff.mp hf'
      exact hd g hg
    · exact hd f hf
  | write d' bs readable env =>
    obtain rfl : d' = d := ha
    have hext : Extends B s (.write d' bs readable env) := extends_of_atEnd h hd
    have hsize := hext.1
    intro f hf
    rcases fdWrite_cases (B := B) (s := s) d' bs readable env with
      ⟨-, hstep⟩ | ⟨g, hg, -, -, ⟨e, -, hcount, hstep⟩ | ⟨r, -, hcount, hstep⟩⟩
    · rw [hstep] at hf ⊢
      exact hd f hf
    · rw [hsize, hcount]
      rw [hstep] at hf
      exact hd f hf
    · rw [hsize, hcount]
      rw [hstep] at hf
      cases (update_self d' _ s.desc).symm.trans hf
      exact congrArg (· + r) (hd g hg)

theorem Inv.exec (as : List (Act ε)) : Inv B (exec (Append.step B) s as) := by
  induction as generalizing s with
  | nil => exact h
  | cons a as ih => exact ih (h.step a)

theorem Inv.ends_exec {d : ℕ} {as : List (Act ε)} (has : ∀ a ∈ as, Undisturbed d a)
    (hd : ∀ f, s.desc d = some f → f.pos = B.size s.file) :
    ∀ f, (Lib.Run.exec (Append.step B) s as).desc d = some f →
      f.pos = B.size (Lib.Run.exec (Append.step B) s as).file := by
  induction as generalizing s with
  | nil => exact hd
  | cons a as ih =>
    exact ih (h.step a) (fun b hb => has b (List.mem_cons_of_mem a hb))
      (h.ends (has a List.mem_cons_self) hd)

theorem Inv.atEnd {pre : List (Act ε)} {a : Act ε} (ha : Alone pre a) :
    AtEnd B (Lib.Run.exec (Append.step B) s pre) a := by
  cases a with
  | «open» d mode append => trivial
  | setFl d append => trivial
  | write d bs readable env =>
    obtain ⟨p₁, mode, p₂, rfl, hp₂⟩ := ha
    rw [exec_append]
    -- the offset is at the end when the file is opened, and every later step keeps it there
    refine Inv.ends_exec ((h.exec p₁).step (.open d mode true)) hp₂ fun f hf => ?_
    cases (update_self d _ _).symm.trans hf
    rfl

theorem size_exec {as : List (Act ε)}
    (hend : Along (step B) (fun s a => Appends s a → AtEnd B s a) s as)
    (happ : Along (step B) (fun s a => (∃ d bs readable env, a = .write d bs readable env) →
      Appends s a) s as) :
    B.size (exec (step B) s as).file = B.size s.file + written B s as := by
  induction as generalizing s with
  | nil => rfl
  | cons a as ih =>
    obtain ⟨hend, hends⟩ := along_cons.mp hend
    obtain ⟨happ, happs⟩ := along_cons.mp happ
    have hstep : B.size (step B s a).file = B.size s.file + count B s a := by
      cases a with
      | «open» d mode append => rfl
      | setFl d append => rfl
      | write d bs readable env =>
        exact (extends_of_atEnd h (hend (happ ⟨d, bs, readable, env, rfl⟩))).1
    rw [exec, List.foldl_cons, ih (h.step a) hends happs, hstep, written, Nat.add_assoc]

end

/-- A write with `O_APPEND` of something extends the file and leaves what is there just when its
offset is at the end. So it does if nothing was written through another description since its own
was opened; if all writes are such, the file grows by what they wrote. -/
theorem appends_extend {σ ε : Type} (B : Backing σ ε) (n : σ) (hn : B.Ok n) (as : List (Act ε)) :
    Along (step B) (fun s a => Appends s a → count B s a ≠ 0 → (Extends B s a ↔ AtEnd B s a))
        ⟨n, fun _ => none⟩ as ∧
      ((∀ pre a, pre ++ [a] <+: as → Appends (exec (step B) ⟨n, fun _ => none⟩ pre) a →
          Alone pre a) →
        Along (step B) (fun s a => Appends s a → Extends B s a) ⟨n, fun _ => none⟩ as ∧
        (Along (step B) (fun s a => (∃ d bs readable env, a = .write d bs readable env) →
            Appends s a) ⟨n, fun _ => none⟩ as →
          B.size (exec (step B) ⟨n, fun _ => none⟩ as).file =
            B.size n + written B ⟨n, fun _ => none⟩ as)) := by
  have hinit : Inv B ⟨n, fun _ => none⟩ := ⟨hn, nofun⟩
  refine ⟨fun pre a _ happ hcount => ?_, fun halone => ?_⟩
  · cases a with
    | «open» d mode append => exact happ.elim
    | setFl d append => exact happ.elim
    | write d bs readable env =>
      exact ⟨fun h => atEnd_of_extends (hinit.exec pre) h hcount, extends_of_atEnd (hinit.exec pre)⟩
  · have hend : Along (step B) (fun s a => Appends s a → AtEnd B s a) ⟨n, fun _ => none⟩ as :=
      fun pre a hp happ => hinit.atEnd (halone pre a hp happ)
    refine ⟨fun pre a hp happ => ?_, size_exec hinit hend⟩
    cases a with
    | «open» d mode append => exact happ.elim
    | setFl d append => exact happ.elim
    | write d bs readable env => exact extends_of_atEnd (hinit.exec pre) (hend pre _ hp happ)

/-- Whatever is written through descriptors of a new memory file, each of its pages has a frame, and
no offset is behind its end. -/
theorem memory_file_sound (as : List (Act Mm.Shmem.Mem)) :
    Always (step shmemBacking) (Inv shmemBacking) ⟨Mm.Shmem.Obj.create, fun _ => none⟩ as :=
  have h : Inv shmemBacking ⟨Mm.Shmem.Obj.create, fun _ => none⟩ :=
    ⟨Mm.Shmem.Obj.sound_create, nofun⟩
  fun pre _ => h.exec pre

def emptyFile : RamNode := ⟨0, 0, fun _ => 0⟩

def lateOpen : List (Act (Option (ℕ → UInt8))) :=
  [.open 3 .wronly true, .write 3 [97] true (some fun _ => 0), .open 4 .wronly true,
    .write 4 [98] true (some fun _ => 0)]

theorem appends_extend_late :
    Along (step ramBacking) (fun s a => Appends s a → Extends ramBacking s a)
        ⟨emptyFile, fun _ => none⟩ lateOpen := by
  refine ((appends_extend ramBacking emptyFile trivial lateOpen).2 fun pre a hp _ => ?_).1
  rcases pre with _ | ⟨b, _ | ⟨c, _ | ⟨d, _ | ⟨e, pre⟩⟩⟩⟩ <;> simp [lateOpen] at hp
  · rw [hp]
    trivial
  · obtain ⟨rfl, rfl⟩ := hp
    exact ⟨[], _, [], rfl, nofun⟩
  · obtain ⟨-, -, rfl⟩ := hp
    trivial
  · obtain ⟨rfl, rfl, rfl, rfl⟩ := hp
    exact ⟨[_, _], _, [], rfl, nofun⟩

def twoOpen : List (Act (Option (ℕ → UInt8))) :=
  [.open 3 .wronly true, .open 4 .wronly true, .write 3 [97] true (some fun _ => 0),
    .write 4 [98] true (some fun _ => 0)]

def lateFlag : List (Act (Option (ℕ → UInt8))) :=
  [.open 3 .wronly true, .open 4 .wronly false, .write 3 [97] true (some fun _ => 0),
    .setFl 4 true, .write 4 [98] true (some fun _ => 0)]

/-- Two bytes are appended and the file has one: the second went over the first. -/
theorem appends_overwrite :
    (¬Along (step ramBacking) (fun s a => Appends s a → Extends ramBacking s a)
        ⟨emptyFile, fun _ => none⟩ twoOpen ∧
      written ramBacking ⟨emptyFile, fun _ => none⟩ twoOpen = 2 ∧
      (exec (step ramBacking) ⟨emptyFile, fun _ => none⟩ twoOpen).file.size = 1) ∧
    ¬Along (step ramBacking) (fun s a => Appends s a → Extends ramBacking s a)
        ⟨emptyFile, fun _ => none⟩ lateFlag ∧
      written ramBacking ⟨emptyFile, fun _ => none⟩ lateFlag = 2 ∧
      (exec (step ramBacking) ⟨emptyFile, fun _ => none⟩ lateFlag).file.size = 1 := by
  refine ⟨⟨fun h => ?_, rfl, rfl⟩, fun h => ?_, rfl, rfl⟩
  · simp only [twoOpen, along_cons] at h
    obtain ⟨-, -, -, h, -⟩ := h
    have hsize := (h ⟨_, rfl, rfl⟩).1
    exact absurd hsize (by decide)
  · simp only [lateFlag, along_cons] at h
    obtain ⟨-, -, -, -, h, -⟩ := h
    have hsize := (h ⟨_, rfl, rfl⟩).1
    exact absurd hsize (by decide)

end Kyronix.Fs.Append
