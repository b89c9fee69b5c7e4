import Kyronix.Lib.Bytes
import Kyronix.Lib.Run

/-! ChaCha20 and the random generator over it (`kernel/crypto/chacha20.c`), next to the block
function of RFC 8439. -/
namespace Kyronix.Crypto

open List Function Lib.Bytes Lib.Ring Lib.Run

abbrev Block := Fin 16 → UInt32

def rotl32 (x n : UInt32) : UInt32 := (x <<< n) ||| (x >>> (32 - n))

def load32Le (p : ℕ → UInt8) (off : ℕ) : UInt32 :=
  (p off).toUInt32 ||| (p (off + 1)).toUInt32 <<< 8 ||| (p (off + 2)).toUInt32 <<< 16 |||
    (p (off + 3)).toUInt32 <<< 24

/-- `x[a] += x[b]; x[d] = rotl32(x[d] ^ x[a], n);` -/
structure Statement where
  a : Fin 16
  b : Fin 16
  d : Fin 16
  n : UInt32

def mixWords (x : Block) : Statement → Block
  | ⟨a, b, d, n⟩ =>
    let x := update x a (x a + x b)
    update x d (rotl32 (x d ^^^ x a) n)

/-! The statements of the loop in `chacha20_next_block`, in their order. -/

def firstHalf : List Statement :=
  [⟨0, 4, 12, 16⟩, ⟨1, 5, 13, 16⟩, ⟨2, 6, 14, 16⟩, ⟨3, 7, 15, 16⟩,
    ⟨8, 12, 4, 12⟩, ⟨9, 13, 5, 12⟩, ⟨10, 14, 6, 12⟩, ⟨11, 15, 7, 12⟩,
    ⟨0, 4, 12, 8⟩, ⟨1, 5, 13, 8⟩, ⟨2, 6, 14, 8⟩, ⟨3, 7, 15, 8⟩,
    ⟨8, 12, 4, 7⟩, ⟨9, 13, 5, 7⟩, ⟨10, 14, 6, 7⟩, ⟨11, 15, 7, 7⟩]

def secondHalf : List Statement :=
  [⟨0, 5, 15, 16⟩, ⟨1, 6, 12, 16⟩, ⟨2, 7, 13, 16⟩, ⟨3, 4, 14, 16⟩,
    ⟨10, 15, 5, 12⟩, ⟨11, 12, 6, 12⟩, ⟨8, 13, 7, 12⟩, ⟨9, 14, 4, 12⟩,
    ⟨0, 5, 15, 8⟩, ⟨1, 6, 12, 8⟩, ⟨2, 7, 13, 8⟩, ⟨3, 4, 14, 8⟩,
    ⟨10, 15, 5, 7⟩, ⟨11, 12, 6, 7⟩, ⟨8, 13, 7, 7⟩, ⟨9, 14, 4, 7⟩]

structure Ctx where
  state : Block
  keystream : Block
  position : ℕ

def tick (s : Block) : Block :=
  let s := update s 12 (s 12 + 1)
  if s 12 = 0 then update s 13 (s 13 + 1) else s

def Ctx.nextBlock (c : Ctx) : Ctx :=
  let x := (fun x => (firstHalf ++ secondHalf).foldl mixWords x)^[10] c.state
  { c with keystream := fun i => x i + c.state i, state := tick c.state }

def magic (i : ℕ) : UInt8 :=
  [101, 120, 112, 97, 110, 100, 32, 51, 50, 45, 98, 121, 116, 101, 32, 107].getD i 0

def chacha20Init (key nonce : ℕ → UInt8) (counter : UInt32) : Ctx where
  state := fun i =>
    if i < 4 then load32Le magic (4 * i) else if i < 12 then load32Le key (4 * (i - 4))
    else if i = 12 then counter else load32Le nonce (4 * (i - 13))
  keystream := fun _ => 0
  position := 64

def byteAt (x : Block) (p : ℕ) : UInt8 :=
  (x (Fin.ofNat 16 (p / 4)) >>> (8 * UInt32.ofNat (p % 4))).toUInt8

/-- One turn of the loops over the bytes. -/
def Ctx.turn (c : Ctx) : UInt8 × Ctx :=
  let c := if c.position ≥ 64 then { c.nextBlock with position := 0 } else c
  (byteAt c.keystream c.position, { c with position := c.position + 1 })

def chacha20Encrypt (c : Ctx) : List UInt8 → List UInt8 × Ctx
  | [] => ([], c)
  | b :: bs =>
    let r := chacha20Encrypt c.turn.2 bs
    ((b ^^^ c.turn.1) :: r.1, r.2)

def encryptCalls (c : Ctx) : List (List UInt8) → List UInt8 × Ctx
  | [] => ([], c)
  | d :: ds =>
    let r := encryptCalls (chacha20Encrypt c d).2 ds
    ((chacha20Encrypt c d).1 ++ r.1, r.2)

structure Rng where
  inner : Ctx
  counter : UInt64

def rngReseed (seed : ℕ → UInt8) : Rng := ⟨chacha20Init seed (fun _ => 0) 0, 0⟩

def draw (c : Ctx) : ℕ → List UInt8 × Ctx
  | 0 => ([], c)
  | n + 1 =>
    let r := draw c.turn.2 n
    (c.turn.1 :: r.1, r.2)

def rngBytes (r : Rng) (len : ℕ) : List UInt8 × Rng :=
  ((draw r.inner len).1, ⟨(draw r.inner len).2, r.counter + UInt64.ofNat len⟩)

/-- One turn of `chacha20_rng_fold`. -/
def foldTurn (data : List UInt8) (state : ℕ → UInt8) (off : ℕ) : ℕ → UInt8 :=
  let state := fun i => if i < min (data.length - off) 64 then
    state i ^^^ (data.getD (off + i) 0 + UInt8.ofNat (off + i)) else state i
  let state := blit state 44 (encode 4 (off / 64))
  let c := chacha20Init state (fun i => state (32 + i)) 0
  let block := (chacha20Encrypt c (slice state 0 64)).1
  fun i => block.getD i 0 ^^^ (state ((i + 17) % 64) + UInt8.ofNat i)

-- "kyronix kyronix"
def foldInit (i : ℕ) : UInt8 :=
  [107, 121, 114, 111, 110, 105, 120, 32, 107, 121, 114, 111, 110, 105, 120].getD i 0

def rngFold (data : List UInt8) : ℕ → UInt8 :=
  let state := blit foldInit 48 (encode 8 data.length)
  let state := (range ((data.length + 63) / 64)).foldl (fun s k => foldTurn data s (64 * k)) state
  fun i => state i ^^^ state (i + 32)

def rngMix (r : Rng) (data : List UInt8) : Rng :=
  if data = [] then r
  else rngReseed fun i => (rngBytes r 32).1.getD i 0 ^^^ rngFold data i

/-- The generator with the state it was last keyed to and its output since. -/
structure Sys where
  rng : Rng
  start : Block
  out : List UInt8

def keyed (r : Rng) : Sys := ⟨r, r.inner.state, []⟩

inductive RngCall
  | bytes (len : ℕ)
  | mix (data : List UInt8)

def rngStep (s : Sys) : RngCall → Sys
  | .bytes len => { s with rng := (rngBytes s.rng len).2, out := s.out ++ (rngBytes s.rng len).1 }
  | .mix data => if data = [] then s else keyed (rngMix s.rng data)

/-! RFC 8439, with its own rotation, quarter round and order of the bytes. -/

def rotl (x : UInt32) (n : ℕ) : UInt32 := .ofBitVec (x.toBitVec.rotateLeft n)

def quarterRound (a b c d : Fin 16) (x : Block) : Block :=
  let a₁ := x a + x b
  let d₁ := rotl (x d ^^^ a₁) 16
  let c₁ := x c + d₁
  let b₁ := rotl (x b ^^^ c₁) 12
  let a₂ := a₁ + b₁
  let d₂ := rotl (d₁ ^^^ a₂) 8
  let c₂ := c₁ + d₂
  let b₂ := rotl (b₁ ^^^ c₂) 7
  update (update (update (update x a a₂) b b₂) c c₂) d d₂

def columnRound : Block → Block :=
  quarterRound 3 7 11 15 ∘ quarterRound 2 6 10 14 ∘ quarterRound 1 5 9 13 ∘ quarterRound 0 4 8 12

def diagonalRound : Block → Block :=
  quarterRound 3 4 9 14 ∘ quarterRound 2 7 8 13 ∘ quarterRound 1 6 11 12 ∘ quarterRound 0 5 10 15

def rfcBlock (s : Block) : Block := fun i => (diagonalRound ∘ columnRound)^[10] s i + s i

/-- Byte `k` of the blocks from the state `s` on. -/
def ksByte (s : Block) (k : ℕ) : UInt8 :=
  UInt8.ofNat ((rfcBlock (tick^[k / 64] s) (Fin.ofNat 16 (k % 64 / 4))).toNat / 256 ^ (k % 4))

theorem ksByte_eq (s : Block) (k : ℕ) :
    ksByte s k = byteAt (rfcBlock (tick^[k / 64] s)) (k % 64) := by
  have hmod : k % 64 % 4 = k % 4 := Nat.mod_mod_of_dvd k (by decide)
  have h : k % 4 < 4 := Nat.mod_lt _ (by decide)
  rw [ksByte, byteAt, hmod]
  generalize k % 4 = j at h
  apply UInt8.toNat.inj
  interval_cases j <;> simp [Nat.shiftRight_eq_div_pow]

/-- The statements of the code that make up a quarter round. -/
def quarter (a b c d : Fin 16) : List Statement :=
  [⟨a, b, d, 16⟩, ⟨c, d, b, 12⟩, ⟨a, b, d, 8⟩, ⟨c, d, b, 7⟩]

theorem foldl_quarter {a b c d : Fin 16} (h : [a, b, c, d].Nodup) (x : Block) :
    (quarter a b c d).foldl mixWords x = quarterRound a b c d x := by
  simp only [nodup_cons, mem_cons, not_mem_nil, or_false, not_or] at h
  obtain ⟨⟨hab, hac, had⟩, ⟨hbc, hbd⟩, hcd, -⟩ := h
  have hrot (y : UInt32) : rotl32 y 16 = rotl y 16 ∧ rotl32 y 12 = rotl y 12 ∧
      rotl32 y 8 = rotl y 8 ∧ rotl32 y 7 = rotl y 7 := ⟨rfl, rfl, rfl, rfl⟩
  funext i
  simp only [quarter, foldl_cons, foldl_nil, mixWords, quarterRound, hrot, update_apply]
  grind

/-- Neither statement writes a word that the other uses. -/
def Statement.Apart (s t : Statement) : Prop :=
  (s.a ≠ t.a ∧ s.a ≠ t.b ∧ s.a ≠ t.d ∧ s.a ≠ s.d) ∧
    (s.d ≠ t.a ∧ s.d ≠ t.b ∧ s.d ≠ t.d ∧ s.b ≠ t.a) ∧ s.b ≠ t.d ∧ t.a ≠ t.d

instance : DecidableRel Statement.Apart := fun _ _ => inferInstanceAs (Decidable (_ ∧ _))

theorem mixWords_comm {s t : Statement} (h : s.Apart t) (x : Block) :
    mixWords (mixWords x s) t = mixWords (mixWords x t) s := by
  obtain ⟨a, b, d, n⟩ := s
  obtain ⟨a', b', d', m⟩ := t
  obtain ⟨⟨haa, hab, had, hne⟩, ⟨hda, hdb, hdd, hba⟩, hbd, hne'⟩ := h
  simp only [mixWords, Function.update_self, ne_eq, not_false_eq_true, Function.update_of_ne,
    haa, had, hda, hdd, hba, hbd, hne.symm, hne'.symm, haa.symm, hab.symm, had.symm, hda.symm,
    hdb.symm, hdd.symm]
  rw [Function.update_comm hda, Function.update_comm haa, Function.update_comm hdd,
    Function.update_comm had]

theorem apply_foldl_comm {g : Block → Block} {as : List Statement}
    (h : ∀ s ∈ as, ∀ x, g (mixWords x s) = mixWords (g x) s) (x : Block) :
    g (as.foldl mixWords x) = as.foldl mixWords (g x) := by
  induction as generalizing x with
  | nil => rfl
  | cons s as ih =>
    rw [forall_mem_cons] at h
    rw [foldl_cons, ih h.2, h.1, foldl_cons]

theorem foldl_mixWords_comm {as bs : List Statement} (h : ∀ s ∈ as, ∀ t ∈ bs, s.Apart t)
    (x : Block) :
    bs.foldl mixWords (as.foldl mixWords x) = as.foldl mixWords (bs.foldl mixWords x) := by
  refine apply_foldl_comm (g := (bs.foldl mixWords ·)) (fun s hs x => ?_) x
  exact (apply_foldl_comm (g := (mixWords · s))
    (fun t ht x => (mixWords_comm (h s hs t ht) x).symm) x).symm

/-- Statements of two columns may be taken row by row. -/
theorem foldl_rows {as : List Statement} {rs : List (List Statement)} (hlen : as.length = rs.length)
    (h : ∀ s ∈ rs.flatten, ∀ t ∈ as, s.Apart t) (x : Block) :
    (zipWith cons as rs).flatten.foldl mixWords x = (as ++ rs.flatten).foldl mixWords x := by
  induction as generalizing rs x with
  | nil => cases rs with
    | nil => rfl
    | cons r rs => cases hlen
  | cons a as ih => cases rs with
    | nil => cases hlen
    | cons r rs =>
      rw [flatten_cons] at h
      have hr : ∀ s ∈ r, ∀ t ∈ as, s.Apart t := fun s hs t ht =>
        h s (mem_append_left _ hs) t (mem_cons_of_mem _ ht)
      have hrs : ∀ s ∈ rs.flatten, ∀ t ∈ as, s.Apart t := fun s hs t ht =>
        h s (mem_append_right _ hs) t (mem_cons_of_mem _ ht)
      simp only [zipWith_cons_cons, flatten_cons, cons_append, foldl_cons, foldl_append,
        ih (Nat.succ.inj hlen) hrs, foldl_mixWords_comm hr]

theorem foldl_firstHalf (x : Block) : firstHalf.foldl mixWords x = columnRound x := by
  have hrows : firstHalf = (zipWith cons (quarter 0 4 8 12) (zipWith cons (quarter 1 5 9 13)
    (zipWith cons (quarter 2 6 10 14) ((quarter 3 7 11 15).map ([·]))))).flatten := rfl
  rw [hrows, foldl_rows rfl (by decide), foldl_append, foldl_rows rfl (by decide), foldl_append,
    foldl_rows rfl (by decide), foldl_append, foldl_quarter (by decide), foldl_quarter (by decide),
    foldl_quarter (by decide)]
  exact foldl_quarter (by decide) _

theorem foldl_secondHalf (x : Block) : secondHalf.foldl mixWords x = diagonalRound x := by
  have hrows : secondHalf = (zipWith cons (quarter 0 5 10 15) (zipWith cons (quarter 1 6 11 12)
    (zipWith cons (quarter 2 7 8 13) ((quarter 3 4 9 14).map ([·]))))).flatten := rfl
  rw [hrows, foldl_rows rfl (by decide), foldl_append, foldl_rows rfl (by decide), foldl_append,
    foldl_rows rfl (by decide), foldl_append, foldl_quarter (by decide), foldl_quarter (by decide),
    foldl_quarter (by decide)]
  exact foldl_quarter (by decide) _

theorem nextBlock_keystream (c : Ctx) : c.nextBlock.keystream = rfcBlock c.state := by
  have hround : (fun x => (firstHalf ++ secondHalf).foldl mixWords x) =
      diagonalRound ∘ columnRound := by
    funext x
    rw [foldl_append, foldl_firstHalf, foldl_secondHalf]
    rfl
  show (fun i => _^[10] c.state i + c.state i) = _
  rw [hround]
  rfl

theorem chacha20Encrypt_append (c : Ctx) (xs ys : List UInt8) :
    chacha20Encrypt c (xs ++ ys) =
      ((chacha20Encrypt c xs).1 ++ (chacha20Encrypt (chacha20Encrypt c xs).2 ys).1,
        (chacha20Encrypt (chacha20Encrypt c xs).2 ys).2) := by
  induction xs generalizing c with
  | nil => rfl
  | cons b xs ih => simp [chacha20Encrypt, ih]

theorem encryptCalls_eq (c : Ctx) (ds : List (List UInt8)) :
    encryptCalls c ds = chacha20Encrypt c ds.flatten := by
  induction ds generalizing c with
  | nil => rfl
  | cons d ds ih => rw [encryptCalls, ih, flatten_cons, chacha20Encrypt_append]

theorem chacha20Encrypt_self (c : Ctx) (data : List UInt8) :
    (chacha20Encrypt c (chacha20Encrypt c data).1).1 = data := by
  induction data generalizing c with
  | nil => rfl
  | cons b bs ih => simp [chacha20Encrypt, ih]

theorem chacha20Encrypt_eq_draw (c : Ctx) (data : List UInt8) :
    (chacha20Encrypt c data).1 = zipWith (· ^^^ ·) data (draw c data.length).1 := by
  induction data generalizing c with
  | nil => rfl
  | cons b bs ih => simp [chacha20Encrypt, draw, ih]

/-- `k` bytes have been used since the state was `s`. -/
def At (s : Block) (k : ℕ) (c : Ctx) : Prop :=
  ∃ m, c.position ≤ 64 ∧ k + 64 = 64 * m + c.position ∧ c.state = tick^[m] s ∧
    (0 < m → c.keystream = rfcBlock (tick^[m - 1] s))

theorem At.turn {s : Block} {k : ℕ} {c : Ctx} (h : At s k c) :
    c.turn.1 = ksByte s k ∧ At s (k + 1) c.turn.2 := by
  obtain ⟨m, hle, hk, hs, hks⟩ := h
  by_cases hfull : c.position ≥ 64
  · have hnew : c.nextBlock.keystream = rfcBlock (tick^[m] s) := by
      rw [nextBlock_keystream, hs]
    have hdiv : k / 64 = m ∧ k % 64 = 0 := by omega
    refine ⟨?_, m + 1, ?_, ?_, ?_, fun _ => ?_⟩
    · simp [Ctx.turn, hfull, ksByte_eq, hdiv, hnew]
    · simp [Ctx.turn, hfull]
    · simp only [Ctx.turn, hfull, if_true]
      omega
    · simp [Ctx.turn, hfull, Ctx.nextBlock, hs, iterate_succ_apply']
    · simpa [Ctx.turn, hfull] using hnew
  · have hm : 0 < m := by omega
    have hdiv : k / 64 = m - 1 ∧ k % 64 = c.position := by omega
    refine ⟨?_, m, ?_, ?_, ?_, fun _ => ?_⟩
    · simp [Ctx.turn, hfull, ksByte_eq, hdiv, hks hm]
    · simp only [Ctx.turn, hfull, if_false]
      omega
    · simp only [Ctx.turn, hfull, if_false]
      omega
    · simpa [Ctx.turn, hfull] using hs
    · simpa [Ctx.turn, hfull] using hks hm

theorem At.draw {s : Block} {k : ℕ} {c : Ctx} (h : At s k c) (n : ℕ) :
    (draw c n).1 = (range' k n).map (ksByte s) ∧ At s (k + n) (draw c n).2 := by
  induction n generalizing k c with
  | zero => exact ⟨rfl, h⟩
  | succ n ih =>
    obtain ⟨hbyte, hnext⟩ := h.turn
    obtain ⟨hrest, hlast⟩ := ih hnext
    refine ⟨?_, by rwa [show k + (n + 1) = k + 1 + n by omega]⟩
    simp only [Crypto.draw, hbyte, hrest, range'_succ, map_cons]

theorem at_chacha20Init (key nonce : ℕ → UInt8) (counter : UInt32) :
    At (chacha20Init key nonce counter).state 0 (chacha20Init key nonce counter) :=
  ⟨0, le_rfl, rfl, rfl, fun h => absurd h (lt_irrefl 0)⟩

def counter64 (s : Block) : ℕ := (s 12).toNat + 2 ^ 32 * (s 13).toNat

theorem counter64_tick (s : Block) : counter64 (tick s) = (counter64 s + 1) % 2 ^ 64 := by
  have hlow : (s 12 + 1).toNat = ((s 12).toNat + 1) % 2 ^ 32 := UInt32.toNat_add _ _
  have hhigh : (s 13 + 1).toNat = ((s 13).toNat + 1) % 2 ^ 32 := UInt32.toNat_add _ _
  have h₁₂ := (s 12).toNat_lt
  have h₁₃ := (s 13).toNat_lt
  simp only [tick, update_self]
  split
  · rename_i hz
    have hzero : (s 12 + 1).toNat = 0 := by
      rw [hz]
      rfl
    simp [counter64, hz, hhigh]
    omega
  · rename_i hz
    have hpos : (s 12 + 1).toNat ≠ 0 := fun h => hz (UInt32.toNat.inj h)
    simp only [counter64, update_self, update_of_ne (show (13 : Fin 16) ≠ 12 by decide), hlow]
    omega

theorem counter64_iterate (s : Block) (n : ℕ) :
    counter64 (tick^[n] s) = (counter64 s + n) % 2 ^ 64 := by
  induction n with
  | zero =>
    have h₁₂ := (s 12).toNat_lt
    have h₁₃ := (s 13).toNat_lt
    exact (Nat.mod_eq_of_lt (show (s 12).toNat + 2 ^ 32 * (s 13).toNat < _ by omega)).symm
  | succ n ih =>
    rw [iterate_succ_apply', counter64_tick, ih]
    omega

theorem tick_injOn (s : Block) : Set.InjOn (tick^[·] s) (Set.Iio (2 ^ 64)) := by
  intro i hi j hj hij
  have h := congrArg counter64 hij
  simp only [counter64_iterate, Set.mem_Iio] at h hi hj
  omega

/-- The output since the last key is the beginning of its keystream. -/
def Sys.InOrder (s : Sys) : Prop :=
  s.out = (range' 0 s.out.length).map (ksByte s.start)

theorem rngStep_inOrder {s : Sys} (h : s.InOrder ∧ At s.start s.out.length s.rng.inner)
    (call : RngCall) : (rngStep s call).InOrder ∧
      At (rngStep s call).start (rngStep s call).out.length (rngStep s call).rng.inner := by
  cases call with
  | bytes len =>
    obtain ⟨hout, hat⟩ := h
    obtain ⟨hbytes, hnext⟩ := hat.draw len
    have hlen : (rngStep s (.bytes len)).out.length = s.out.length + len := by
      simp [rngStep, rngBytes, hbytes]
    refine ⟨?_, by rwa [hlen]⟩
    rw [Sys.InOrder, hlen, ← range'_append_1, map_append, zero_add]
    exact congrArg₂ (· ++ ·) hout hbytes
  | mix data =>
    rw [rngStep]
    split
    · exact h
    · rename_i hne
      rw [rngMix, if_neg hne]
      exact ⟨rfl, at_chacha20Init _ _ _⟩

theorem rng_runs_inOrder (seed : ℕ → UInt8) (calls : List RngCall) :
    Always rngStep (fun s => s.InOrder ∧ At s.start s.out.length s.rng.inner)
      (keyed (rngReseed seed)) calls :=
  Along.always (C := fun _ _ => True) (fun _ _ _ => trivial) ⟨rfl, at_chacha20Init _ _ _⟩
    fun _ call h _ => rngStep_inOrder h call

theorem chacha20_exact :
    (∀ c : Ctx, c.nextBlock.keystream = rfcBlock c.state) ∧
    (∀ c calls, encryptCalls c calls = chacha20Encrypt c calls.flatten) ∧
    (∀ c data, (chacha20Encrypt c (chacha20Encrypt c data).1).1 = data) ∧
    (∀ key nonce counter data, (chacha20Encrypt (chacha20Init key nonce counter) data).1 =
      zipWith (· ^^^ ·) data
        ((range' 0 data.length).map (ksByte (chacha20Init key nonce counter).state))) ∧
    (∀ seed calls, Always rngStep Sys.InOrder (keyed (rngReseed seed)) calls) ∧
    ∀ s, Set.InjOn (tick^[·] s) (Set.Iio (2 ^ 64)) := by
  refine ⟨nextBlock_keystream, encryptCalls_eq, chacha20Encrypt_self,
    fun key nonce counter data => ?_,
    fun seed calls pre hp => (rng_runs_inOrder seed calls pre hp).1, tick_injOn⟩
  rw [chacha20Encrypt_eq_draw, ((at_chacha20Init key nonce counter).draw _).1]

end Kyronix.Crypto
