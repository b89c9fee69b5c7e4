import Kyronix.Errno
import Kyronix.Lib.Bytes

/-! Reads of a FAT32 file (`fat32.c`): the FAT behind a cache of one sector, the loops that follow
the clusters of a file, and the chain they are slices of. -/
namespace Kyronix.Fs.Fat32

open List Lib.Bytes

def fat32Bad : ℕ := 0x0FFFFFF7
def fat32Eoc : ℕ := 0x0FFFFFF8

/-- `fat32_ctx_t` with the geometry `fat32_mount` accepts; `read` is the device's function. -/
structure Volume where
  bytesPerSector : ℕ
  sectorsPerCluster : ℕ
  reservedSectors : ℕ
  numFats : ℕ
  fatSize : ℕ
  totalSectors : ℕ
  totalClusters : ℕ
  read : ℕ → ℕ → Option (List UInt8)
  sector_pos : 0 < bytesPerSector
  cluster_pos : 0 < sectorsPerCluster
  fats_pos : 0 < numFats
  data_fits : reservedSectors + numFats * fatSize + totalClusters * sectorsPerCluster ≤ totalSectors
  fat_covers : (totalClusters + 2) * 4 ≤ fatSize * bytesPerSector
  read_length : ∀ {lba n bs}, read lba n = some bs → bs.length = n * bytesPerSector

/-- `fat_sec_lba` and `fat_sec`, and the requests the device has had: first sector and number. -/
structure Cache where
  lba : Option ℕ
  sec : List UInt8
  reads : List (ℕ × ℕ)

def Cache.fetch (c : Cache) (v : Volume) (lba : ℕ) : Option (List UInt8) × Cache :=
  if c.lba = some lba then (some c.sec, c)
  else match v.read lba 1 with
    | none => (none, { c with reads := (lba, 1) :: c.reads })
    | some sec => (some sec, ⟨some lba, sec, (lba, 1) :: c.reads⟩)

namespace Volume

variable (v : Volume)

def clusterSize : ℕ := v.bytesPerSector * v.sectorsPerCluster

def dataStart : ℕ := v.reservedSectors + v.numFats * v.fatSize

-- `cluster * 4` is taken in 32 bits.
def fatSector (cluster : ℕ) : ℕ := v.reservedSectors + cluster * 4 % 2 ^ 32 / v.bytesPerSector

def fatValue (cluster : ℕ) (sec : Option (List UInt8)) : ℕ :=
  sec.elim fat32Eoc fun sec =>
    decode ((sec.drop (cluster * 4 % 2 ^ 32 % v.bytesPerSector)).take 4) % 2 ^ 28

def fatNext (cluster : ℕ) (c : Cache) : ℕ × Cache :=
  let r := c.fetch v (v.fatSector cluster)
  (v.fatValue cluster r.1, r.2)

def Has (cl : ℕ) : Prop := 2 ≤ cl ∧ cl < fat32Bad ∧ cl ≤ v.totalClusters + 1

instance (cl : ℕ) : Decidable (v.Has cl) := inferInstanceAs (Decidable (_ ∧ _ ∧ _))

def lba (cl : ℕ) : ℕ := v.dataStart + (cl - 2) * v.sectorsPerCluster

def skip : ℕ → ℕ → Cache → Option ℕ × Cache
  | 0, cl, c => (some cl, c)
  | n + 1, cl, c =>
    let r := v.fatNext cl c
    if v.Has r.1 then skip n r.1 r.2 else (none, r.2)

theorem clusterSize_pos : 0 < v.clusterSize := Nat.mul_pos v.sector_pos v.cluster_pos

/-- The copy loop, with `len` bytes to go; `room` is the answer to the request for a scratch
buffer, which only part of a cluster needs. -/
def copy (room : Bool) (len cl : ℕ) (inCluster : Fin v.clusterSize) (c : Cache) :
    List UInt8 × Cache :=
  if len = 0 ∨ ¬ v.Has cl then ([], c)
  else
    let chunk := min (v.clusterSize - inCluster) len
    if room = false ∧ (inCluster.val ≠ 0 ∨ chunk ≠ v.clusterSize) then ([], c)
    else
      let c := { c with reads := (v.lba cl, v.sectorsPerCluster) :: c.reads }
      match v.read (v.lba cl) v.sectorsPerCluster with
      | none => ([], c)
      | some data =>
        let next := if chunk < len then v.fatNext cl c else (cl, c)
        let rest := copy room (len - chunk) next.1 ⟨0, v.clusterSize_pos⟩ next.2
        ((data.drop inCluster).take chunk ++ rest.1, rest.2)
termination_by len
decreasing_by have := inCluster.isLt; omega

def regRead (size : ℕ) (file : Option ℕ) (off len : ℕ) (room : Bool) (c : Cache) :
    Except ℤ (List UInt8) × Cache :=
  match file with
  | none => (.error (-eio), c)
  | some start =>
    let len := min len (size - off)
    if off ≥ size ∨ len = 0 then (.ok [], c)
    else match v.skip (off / v.clusterSize) start c with
      | (none, c) => (.error (-eio), c)
      | (some cl, c) =>
        let r := v.copy room len cl ⟨off % v.clusterSize, Nat.mod_lt _ v.clusterSize_pos⟩ c
        (if r.1 = [] then .error (-eio) else .ok r.1, r.2)

def entry (cl : ℕ) : ℕ := v.fatValue cl (v.read (v.fatSector cl) 1)

def chain : ℕ → ℕ → List ℕ
  | 0, _ => []
  | n + 1, cl => if v.Has cl then cl :: chain n (v.entry cl) else []

def contents (n cl : ℕ) : List UInt8 :=
  (v.chain n cl).flatMap fun cl => (v.read (v.lba cl) v.sectorsPerCluster).getD []

def Reads : Prop := ∀ lba n, lba + n ≤ v.totalSectors → (v.read lba n).isSome

/-- The cache has what the device has, and all requests were for sectors before `lim`. -/
structure Below (lim : ℕ) (c : Cache) : Prop where
  held : ∀ lba, c.lba = some lba → v.read lba 1 = some c.sec
  inside : ∀ r ∈ c.reads, r.1 + r.2 ≤ lim

abbrev Sound (c : Cache) : Prop := v.Below v.totalSectors c

/-- The read has clusters to skip. -/
def Skips (size off len : ℕ) : Prop := off < size ∧ len ≠ 0 ∧ v.clusterSize ≤ off

def slice (n size start off len : ℕ) : List UInt8 :=
  ((v.contents n start).drop off).take (min len (size - off))

/-- The bytes of a read; past the first cluster its number only serves to find the next one. -/
def got (n size start off len : ℕ) : List UInt8 :=
  if off < v.clusterSize then v.slice n size start off len
  else ((v.contents (n - 1) (v.entry start)).drop (off - v.clusterSize)).take (min len (size - off))

variable {v} {n cl lim size off start len : ℕ} {c : Cache}

theorem Below.request (h : v.Below lim c) {lba : ℕ} (hlba : lba + n ≤ lim) :
    v.Below lim { c with reads := (lba, n) :: c.reads } :=
  ⟨h.held, forall_mem_cons.mpr ⟨hlba, h.inside⟩⟩

theorem fatSector_lt (h : v.Has cl) : v.fatSector cl + 1 ≤ v.totalSectors := by
  have hfat : cl * 4 % 2 ^ 32 / v.bytesPerSector < v.fatSize := by
    refine Nat.div_lt_of_lt_mul ?_
    have := v.fat_covers.trans_eq (mul_comm _ _)
    have := h.2.2
    omega
  have := Nat.le_mul_of_pos_left v.fatSize v.fats_pos
  have := v.data_fits
  unfold fatSector
  omega

theorem lba_le (h : v.Has cl) : v.lba cl + v.sectorsPerCluster ≤ v.totalSectors := by
  have hk : (cl - 2 + 1) * v.sectorsPerCluster ≤ v.totalClusters * v.sectorsPerCluster :=
    Nat.mul_le_mul_right _ (by have := h.1; have := h.2.2; omega)
  rw [Nat.succ_mul] at hk
  have := v.data_fits
  unfold lba dataStart
  omega

theorem Below.fatNext (h : v.Below lim c) (hfat : v.fatSector cl + 1 ≤ lim) :
    (v.fatNext cl c).1 = v.entry cl ∧ v.Below lim (v.fatNext cl c).2 := by
  unfold Volume.fatNext entry Cache.fetch
  split_ifs with hc
  · rw [h.held _ hc]
    exact ⟨rfl, h⟩
  · cases hr : v.read (v.fatSector cl) 1 with
    | none => exact ⟨rfl, h.request hfat⟩
    | some sec =>
      refine ⟨rfl, ?_, (h.request hfat).inside⟩
      intro lba hlba
      cases hlba
      exact hr

theorem contents_cons (h : v.Has cl) :
    v.contents (n + 1) cl =
      (v.read (v.lba cl) v.sectorsPerCluster).getD [] ++ v.contents n (v.entry cl) := by
  rw [contents, chain, if_pos h, flatMap_cons, contents]

theorem contents_of_not_has (h : ¬ v.Has cl) : v.contents n cl = [] := by
  cases n with
  | zero => rfl
  | succ n => rw [contents, chain, if_neg h, flatMap_nil]

theorem length_data (hr : v.Reads) (h : v.Has cl) :
    ((v.read (v.lba cl) v.sectorsPerCluster).getD []).length = v.clusterSize := by
  obtain ⟨data, hdata⟩ := Option.isSome_iff_exists.mp (hr _ _ (lba_le h))
  rw [hdata, Option.getD_some, v.read_length hdata, mul_comm, clusterSize]

section

variable (h : v.Below lim c) (hlim : v.totalSectors ≤ lim)
include h hlim

theorem Below.skip (n : ℕ) (hfat : v.fatSector cl + 1 ≤ lim) :
    v.Below lim (v.skip (n + 1) cl c).2 ∧ (v.Reads → ∀ m,
      (v.contents (n + m) (v.entry cl)).drop (n * v.clusterSize) =
        (v.skip (n + 1) cl c).1.elim [] (v.contents m)) := by
  induction n generalizing cl c with
  | zero =>
    obtain ⟨hnext, hs⟩ := h.fatNext hfat
    rw [Volume.skip, hnext]
    split_ifs with hhas
    · exact ⟨hs, fun _ m => by simp [Volume.skip]⟩
    · exact ⟨hs, fun _ m => by rw [contents_of_not_has hhas, drop_nil]; rfl⟩
  | succ n ih =>
    obtain ⟨hnext, hs⟩ := h.fatNext hfat
    rw [Volume.skip, hnext]
    split_ifs with hhas
    · obtain ⟨hs', heq⟩ := ih hs ((fatSector_lt hhas).trans hlim)
      refine ⟨hs', fun hr m => ?_⟩
      rw [← heq hr, Nat.succ_add, contents_cons hhas, Nat.succ_mul, Nat.add_comm, ← drop_drop,
        drop_left' (length_data hr hhas)]
    · exact ⟨hs, fun _ m => by rw [contents_of_not_has hhas, drop_nil]; rfl⟩

theorem Below.copy (room : Bool) (len cl : ℕ) (i : Fin v.clusterSize) :
    v.Below lim (v.copy room len cl i c).2 ∧ (v.copy room len cl i c).1.length ≤ len ∧
      (v.Reads → room = true → ∀ m, i + len ≤ m * v.clusterSize →
        (v.copy room len cl i c).1 = ((v.contents m cl).drop i).take len) := by
  fun_induction v.copy room len cl i c with
  | case1 len cl i c hstop =>
    refine ⟨h, Nat.zero_le _, fun _ _ m _ => ?_⟩
    rcases hstop with rfl | hcl
    · rw [take_zero]
    · rw [contents_of_not_has hcl, drop_nil, take_nil]
  | case2 len cl i c _ _ hroom =>
    refine ⟨h, Nat.zero_le _, fun _ hyes => ?_⟩
    rw [hroom.1] at hyes
    cases hyes
  | case3 len cl i c hgo chunk _ _ hread =>
    obtain ⟨-, hcl⟩ := not_or.mp hgo
    refine ⟨h.request ((lba_le (not_not.mp hcl)).trans hlim), Nat.zero_le _, fun hr => ?_⟩
    have := hr _ _ (lba_le (not_not.mp hcl))
    rw [hread] at this
    cases this
  | case4 len cl i c hgo chunk _ _ data hread next rest ih =>
    obtain ⟨hlen, hcl⟩ := not_or.mp hgo
    have hcl := not_not.mp hcl
    have hnext : (chunk < len → next.1 = v.entry cl) ∧ v.Below lim next.2 := by
      have hreq := h.request ((lba_le hcl).trans hlim)
      by_cases hlt : chunk < len
      · simpa only [next, dif_pos hlt, hlt, forall_const] using
          hreq.fatNext ((fatSector_lt hcl).trans hlim)
      · simpa only [next, dif_neg hlt, hlt, false_imp_iff, true_and] using hreq
    obtain ⟨hs, hle, heq⟩ := ih hnext.2
    refine ⟨hs, ?_, fun hr hroom m hm => ?_⟩
    · rw [length_append, length_take]
      exact (Nat.add_le_add (min_le_left ..) hle).trans (by omega)
    · have hdata : data.length = v.clusterSize := by simpa [hread] using length_data hr hcl
      have := i.isLt
      cases m with
      | zero => omega
      | succ m =>
        rw [Nat.succ_mul] at hm
        rw [contents_cons hcl, hread, Option.getD_some, drop_append_of_le_length (by omega),
          take_append, length_drop, hdata]
        rw [heq hr hroom m (by dsimp only; omega), drop_zero]
        by_cases hlt : chunk < len
        · have hchunk : chunk = v.clusterSize - i := by omega
          rw [hnext.1 hlt, hchunk, take_of_length_le (by simp [hdata]),
            take_of_length_le (l := data.drop i) (by simp [hdata]; omega)]
        · have hchunk : chunk = len := by omega
          rw [hchunk, Nat.sub_self, take_zero, Nat.sub_eq_zero_of_le (by omega), take_zero]

theorem skip_got (size len : ℕ) (hfat : v.clusterSize ≤ off → v.fatSector start + 1 ≤ lim) :
    let r := v.skip (off / v.clusterSize) start c
    v.Below lim r.2 ∧ (v.Reads → ∀ n, off < n * v.clusterSize → ∃ m,
      off / v.clusterSize + m = n ∧ v.got n size start off len =
        ((r.1.elim [] (v.contents m)).drop (off % v.clusterSize)).take (min len (size - off))) := by
  have hpos := v.clusterSize_pos
  obtain hlt | hge := Nat.lt_or_ge off v.clusterSize
  · rw [Nat.div_eq_of_lt hlt, Nat.mod_eq_of_lt hlt]
    exact ⟨h, fun _ n _ => ⟨n, Nat.zero_add n, if_pos hlt⟩⟩
  · obtain ⟨k, hk⟩ := Nat.exists_eq_succ_of_ne_zero (Nat.div_pos hge hpos).ne'
    have hoff := Nat.div_add_mod' off v.clusterSize
    rw [hk, Nat.succ_mul] at hoff
    rw [hk]
    obtain ⟨hs, heq⟩ := h.skip hlim k (hfat hge)
    refine ⟨hs, fun hr n hn => ⟨n - (k + 1), ?_, ?_⟩⟩
    · have := (Nat.div_lt_iff_lt_mul hpos).mpr hn
      omega
    · have hle := (Nat.div_lt_iff_lt_mul hpos).mpr hn
      rw [got, if_neg hge.not_gt, ← heq hr, drop_drop, show k + (n - (k + 1)) = n - 1 by omega,
        show k * v.clusterSize + off % v.clusterSize = off - v.clusterSize by omega]

theorem Below.regRead (size len : ℕ)
    (room : Bool) (hfat : v.Skips size off len → v.fatSector start + 1 ≤ lim) :
    v.Below lim (v.regRead size (some start) off len room c).2 ∧
      (∀ bs, (v.regRead size (some start) off len room c).1 = .ok bs →
        bs.length ≤ min len (size - off)) ∧
      (v.Reads → room = true → ∀ n, min (off + len) size ≤ n * v.clusterSize →
        (v.regRead size (some start) off len room c).1 =
          if off < size ∧ len ≠ 0 ∧ v.got n size start off len = [] then .error (-eio)
          else .ok (v.got n size start off len)) := by
  rw [Volume.regRead]
  split_ifs with hnone
  · refine ⟨h, fun bs hbs => ?_, fun _ _ n _ => ?_⟩
    · cases hbs
      exact Nat.zero_le _
    · have hlen : min len (size - off) = 0 := by omega
      rw [if_neg (by omega), got, slice, hlen, take_zero, take_zero, ite_self]
  · have hskip := skip_got h hlim size len fun hge =>
      hfat ⟨by omega, by omega, hge⟩
    have hoff := Nat.div_add_mod' off v.clusterSize
    generalize v.skip (off / v.clusterSize) start c = r at hskip
    obtain ⟨o, c'⟩ := r
    obtain ⟨hs, hgot⟩ := hskip
    cases o with
    | none =>
      refine ⟨hs, nofun, fun hr _ n hn => ?_⟩
      obtain ⟨m, -, hm⟩ := hgot hr n (by omega)
      rw [if_pos ⟨by omega, by omega, by rw [hm]; simp⟩]
    | some cl =>
      obtain ⟨hs, hle, heq⟩ := hs.copy hlim room (min len (size - off)) cl
        ⟨off % v.clusterSize, Nat.mod_lt _ v.clusterSize_pos⟩
      refine ⟨hs, fun bs hbs => ?_, fun hr hroom n hn => ?_⟩
      · dsimp only at hbs
        split_ifs at hbs
        cases hbs
        exact hle
      · obtain ⟨m, rfl, hm⟩ := hgot hr n (by omega)
        rw [Nat.add_mul] at hn
        have hcopy := (heq hr hroom m (by dsimp only; omega)).trans hm.symm
        dsimp only
        rw [hcopy]
        have hgo : off < size ∧ len ≠ 0 := by omega
        simp [hgo]

end

theorem length_contents (hr : v.Reads) (n cl : ℕ) :
    (v.contents n cl).length = (v.chain n cl).length * v.clusterSize := by
  induction n generalizing cl with
  | zero => simp [contents, chain]
  | succ n ih =>
    by_cases hcl : v.Has cl
    · rw [contents_cons hcl, length_append, length_data hr hcl, ih, chain, if_pos hcl, length_cons,
        Nat.succ_mul, Nat.add_comm]
    · rw [contents_of_not_has hcl, chain, if_neg hcl, length_nil, length_nil, Nat.zero_mul]

theorem slice_add (n size start off l₁ l₂ : ℕ) :
    v.slice n size start off (l₁ + l₂) =
      v.slice n size start off l₁ ++ v.slice n size start (off + l₁) l₂ := by
  unfold slice
  rcases le_total (size - off) l₁ with h | h
  · rw [min_eq_right h, min_eq_right (h.trans (Nat.le_add_right ..)), Nat.sub_add_eq,
      Nat.sub_eq_zero_of_le h, Nat.min_zero, take_zero, append_nil]
  · obtain ⟨k, hk⟩ := Nat.exists_eq_add_of_le h
    rw [min_eq_left h, Nat.sub_add_eq, hk, Nat.add_min_add_left, take_add, drop_drop,
      Nat.add_sub_cancel_left]

theorem Below.mono {lim' : ℕ} (h : v.Below lim c) (hle : lim ≤ lim') : v.Below lim' c :=
  ⟨h.held, fun r hr => (h.inside r hr).trans hle⟩

end Volume

end Kyronix.Fs.Fat32
