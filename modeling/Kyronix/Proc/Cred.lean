import Kyronix.Lib.Run
import Kyronix.Proc.UserNs

/-! The user ids of a process (`cred.c`). Privilege is decided on the local id of the effective user
in its namespace; the setters store the number they are given. -/
namespace Kyronix.Proc

open Lib.Run List

structure Cred where
  uid : UInt32
  euid : UInt32
  suid : UInt32
  fsuid : UInt32
  capEffective : UInt64
  capPermitted : UInt64
  capAmbient : UInt64
  keepcaps : Bool
  isThread : Bool
  userNs : UserNamespace

variable (p : Cred)

def Cred.ids : List UInt32 := [p.uid, p.euid, p.suid, p.fsuid]

-- (uint32_t) -1, the argument that leaves an id alone
def keepId : UInt32 := 0xffffffff

def nsUserIsRoot : Bool := (nsUidToLocal p.userNs p.euid).getD 65534 == 0

def credDropCapsForUid (oldEuid newEuid : UInt32) : Cred :=
  if oldEuid ≠ 0 ∨ newEuid = 0 ∨ p.keepcaps = true then p
  else { p with capEffective := 0, capPermitted := 0, capAmbient := 0 }

def sysSetfsuid (uid : UInt32) : ℤ × Cred :=
  if uid = keepId then (p.fsuid.toNat, p)
  else if nsUserIsRoot p ∨ uid = p.uid ∨ uid = p.euid ∨ uid = p.suid then
    (p.fsuid.toNat, { p with fsuid := uid })
  else (p.fsuid.toNat, p)

def sysSetuid (uid : UInt32) : ℤ × Cred :=
  if nsUserIsRoot p then
    (0, credDropCapsForUid { p with uid := uid, euid := uid, suid := uid, fsuid := uid } p.euid uid)
  else if uid ≠ p.uid ∧ uid ≠ p.suid then (-eperm, p)
  else (0, credDropCapsForUid { p with euid := uid, fsuid := uid } p.euid uid)

-- `if (id != -1) p->field = id`, for the fields that follow the effective id as well
def setRuid (ruid : UInt32) : Cred := if ruid ≠ keepId then { p with uid := ruid } else p

def setEuid (euid : UInt32) : Cred :=
  let q := if euid ≠ keepId then { p with euid := euid, fsuid := euid } else p
  credDropCapsForUid q p.euid q.euid

def setSuid (suid : UInt32) : Cred := if suid ≠ keepId then { p with suid := suid } else p

-- `id != -1 && id != a && ...` for the ids a caller without privilege may pass
def refused (allowed : List UInt32) (id : UInt32) : Bool := id != keepId && !allowed.contains id

def sysSetreuid (ruid euid : UInt32) : ℤ × Cred :=
  if !nsUserIsRoot p && refused [p.uid, p.euid] ruid then (-eperm, p)
  else if !nsUserIsRoot p && refused [p.uid, p.euid, p.suid] euid then (-eperm, p)
  else
    let p := setEuid (setRuid p ruid) euid
    (0, { p with suid := p.euid })

def sysSetresuid (ruid euid suid : UInt32) : ℤ × Cred :=
  let curSet := [p.uid, p.euid, p.suid]
  if !nsUserIsRoot p && (refused curSet ruid || refused curSet euid || refused curSet suid) then
    (-eperm, p)
  else (0, setSuid (setEuid (setRuid p ruid) euid) suid)

/-- `mem` is the outcome of the allocations of `ns_unshare(CLONE_NEWUSER)`. -/
def nsUnshareUser (mem : Bool) : ℤ × Cred :=
  if p.isThread then (-einval, p)
  else if !mem then (-enomem, p)
  else (0, { p with userNs := userNsCreate })

-- `ns_user_map_write` on the caller itself
def nsUserMapWrite (gid readable : Bool) (buf : List UInt8) : ℤ × Cred :=
  if p.userNs.initial then (-eperm, p)
  else
    let (rc, ns) := userMapWrite p.userNs gid readable buf
    (rc, { p with userNs := ns })

inductive CredCall
  | unshareUser (mem : Bool)
  | userMapWrite (gid readable : Bool) (buf : List UInt8)
  | setuid (uid : UInt32)
  | setreuid (ruid euid : UInt32)
  | setresuid (ruid euid suid : UInt32)
  | setfsuid (uid : UInt32)

open CredCall

def CredCall.run : CredCall → ℤ × Cred
  | unshareUser mem => nsUnshareUser p mem
  | userMapWrite gid readable buf => nsUserMapWrite p gid readable buf
  | setuid uid => sysSetuid p uid
  | setreuid ruid euid => sysSetreuid p ruid euid
  | setresuid ruid euid suid => sysSetresuid p ruid euid suid
  | setfsuid uid => sysSetfsuid p uid

def CredCall.stores : CredCall → List UInt32
  | unshareUser _ => []
  | userMapWrite _ _ _ => []
  | setuid uid => [uid]
  | setreuid ruid euid => [ruid, euid].filter (· ≠ keepId)
  | setresuid ruid euid suid => [ruid, euid, suid].filter (· ≠ keepId)
  | setfsuid uid => [uid].filter (· ≠ keepId)

def credStep (c : CredCall) : Cred := (c.run p).2

section

variable {p : Cred} {v : UInt32}

theorem mem_ids : v ∈ p.ids ↔ v = p.uid ∨ v = p.euid ∨ v = p.suid ∨ v = p.fsuid := by
  simp only [Cred.ids, mem_cons, not_mem_nil, or_false]

@[simp] theorem credDropCapsForUid_ids (a b : UInt32) : (credDropCapsForUid p a b).ids = p.ids := by
  unfold credDropCapsForUid
  split <;> rfl

@[simp] theorem credDropCapsForUid_uid (a b : UInt32) : (credDropCapsForUid p a b).uid = p.uid := by
  unfold credDropCapsForUid
  split <;> rfl

@[simp] theorem credDropCapsForUid_euid (a b : UInt32) :
    (credDropCapsForUid p a b).euid = p.euid := by
  unfold credDropCapsForUid
  split <;> rfl

@[simp] theorem credDropCapsForUid_userNs (a b : UInt32) :
    (credDropCapsForUid p a b).userNs = p.userNs := by
  unfold credDropCapsForUid
  split <;> rfl

theorem setRuid_uid {ruid : UInt32} (h : ruid ≠ keepId) : (setRuid p ruid).uid = ruid := by
  rw [setRuid, if_pos h]

@[simp] theorem setEuid_uid (euid : UInt32) : (setEuid p euid).uid = p.uid := by
  unfold setEuid
  rw [credDropCapsForUid_uid]
  split <;> rfl

theorem setEuid_euid {euid : UInt32} (h : euid ≠ keepId) : (setEuid p euid).euid = euid := by
  unfold setEuid
  rw [credDropCapsForUid_euid, if_pos h]

@[simp] theorem setSuid_uid (suid : UInt32) : (setSuid p suid).uid = p.uid := by
  unfold setSuid
  split <;> rfl

@[simp] theorem setSuid_euid (suid : UInt32) : (setSuid p suid).euid = p.euid := by
  unfold setSuid
  split <;> rfl

theorem setSuid_suid {suid : UInt32} (h : suid ≠ keepId) : (setSuid p suid).suid = suid := by
  rw [setSuid, if_pos h]

theorem mem_ids_of_not_refused {allowed asked : List UInt32} (hk : v ≠ keepId) (hv : v ∈ asked)
    (h : nsUserIsRoot p = false → refused allowed v = false) (hsub : ∀ w ∈ allowed, w ∈ p.ids) :
    v ∈ p.ids ∨ nsUserIsRoot p = true ∧ v ∈ asked.filter (· ≠ keepId) := by
  cases hroot : nsUserIsRoot p with
  | false =>
    have hin : v ∈ allowed := by simpa [refused, hk] using h hroot
    exact Or.inl (hsub v hin)
  | true => exact Or.inr ⟨rfl, by simp [hk, hv]⟩

theorem setRuid_ids (ruid : UInt32) (h : v ∈ (setRuid p ruid).ids) :
    v ∈ p.ids ∨ v = ruid ∧ ruid ≠ keepId := by
  unfold setRuid at h
  split at h
  next hr =>
    rw [mem_ids] at h ⊢
    tauto
  next => exact Or.inl h

theorem setEuid_ids (euid : UInt32) (h : v ∈ (setEuid p euid).ids) :
    v ∈ p.ids ∨ v = euid ∧ euid ≠ keepId := by
  unfold setEuid at h
  rw [credDropCapsForUid_ids] at h
  split at h
  next he =>
    rw [mem_ids] at h ⊢
    tauto
  next => exact Or.inl h

theorem setSuid_ids (suid : UInt32) (h : v ∈ (setSuid p suid).ids) :
    v ∈ p.ids ∨ v = suid ∧ suid ≠ keepId := by
  unfold setSuid at h
  split at h
  next hs =>
    rw [mem_ids] at h ⊢
    tauto
  next => exact Or.inl h

theorem setfsuid_ids (uid : UInt32) (h : v ∈ (sysSetfsuid p uid).2.ids) :
    v ∈ p.ids ∨ nsUserIsRoot p = true ∧ v ∈ [uid].filter (· ≠ keepId) := by
  unfold sysSetfsuid at h
  split_ifs at h with hk hok
  · exact Or.inl h
  · have hstored : v = uid → v ∈ [uid].filter (· ≠ keepId) := by
      rintro rfl
      simpa using hk
    rw [mem_ids] at h ⊢
    rcases hok with hroot | hok
    · tauto
    · grind
  · exact Or.inl h

theorem setuid_ids (uid : UInt32) (h : v ∈ (sysSetuid p uid).2.ids) :
    v ∈ p.ids ∨ nsUserIsRoot p = true ∧ v ∈ [uid] := by
  unfold sysSetuid at h
  split_ifs at h with hroot hne
  · rw [credDropCapsForUid_ids, mem_ids] at h
    have hv : v = uid := by simpa only [or_self] using h
    exact Or.inr ⟨hroot, mem_singleton.mpr hv⟩
  · exact Or.inl h
  · rw [credDropCapsForUid_ids, mem_ids] at h
    have hu : uid = p.uid ∨ uid = p.suid := by
      by_contra hno
      exact hne (not_or.mp hno)
    rw [mem_ids]
    grind

theorem stored_ids (ruid euid : UInt32) (h : v ∈ (setEuid (setRuid p ruid) euid).ids) :
    v ∈ p.ids ∨ (v = ruid ∧ ruid ≠ keepId) ∨ (v = euid ∧ euid ≠ keepId) := by
  rcases setEuid_ids euid h with h | h
  · exact (setRuid_ids ruid h).imp_right Or.inl
  · exact Or.inr (Or.inr h)

theorem setreuid_ids (ruid euid : UInt32) (h : v ∈ (sysSetreuid p ruid euid).2.ids) :
    v ∈ p.ids ∨ nsUserIsRoot p = true ∧ v ∈ [ruid, euid].filter (· ≠ keepId) := by
  unfold sysSetreuid at h
  split_ifs at h with hr he
  · exact Or.inl h
  · exact Or.inl h
  · have hmem : v ∈ (setEuid (setRuid p ruid) euid).ids := by
      rw [mem_ids] at h ⊢
      tauto
    simp only [Bool.and_eq_true, Bool.not_eq_true', not_and, Bool.not_eq_true] at hr he
    rcases stored_ids ruid euid hmem with hmem | ⟨rfl, hk⟩ | ⟨rfl, hk⟩
    · exact Or.inl hmem
    · exact mem_ids_of_not_refused hk (by simp) hr (by simp [Cred.ids])
    · exact mem_ids_of_not_refused hk (by simp) he (by simp [Cred.ids])

theorem setresuid_ids (ruid euid suid : UInt32)
    (h : v ∈ (sysSetresuid p ruid euid suid).2.ids) :
    v ∈ p.ids ∨ nsUserIsRoot p = true ∧ v ∈ [ruid, euid, suid].filter (· ≠ keepId) := by
  unfold sysSetresuid at h
  dsimp only at h
  split_ifs at h with hno
  · exact Or.inl h
  · simp only [Bool.and_eq_true, Bool.not_eq_true', not_and, Bool.or_eq_true, not_or,
      Bool.not_eq_true] at hno
    have hsub : ∀ w ∈ [p.uid, p.euid, p.suid], w ∈ p.ids := by simp [Cred.ids]
    rcases (setSuid_ids suid h).imp_left (stored_ids ruid euid) with
      (hmem | ⟨rfl, hk⟩ | ⟨rfl, hk⟩) | ⟨rfl, hk⟩
    · exact Or.inl hmem
    · exact mem_ids_of_not_refused hk (by simp) (fun hroot => (hno hroot).1.1) hsub
    · exact mem_ids_of_not_refused hk (by simp) (fun hroot => (hno hroot).1.2) hsub
    · exact mem_ids_of_not_refused hk (by simp) (fun hroot => (hno hroot).2) hsub

theorem nsUnshareUser_ids (mem : Bool) : (nsUnshareUser p mem).2.ids = p.ids := by
  unfold nsUnshareUser
  split_ifs <;> rfl

theorem nsUserMapWrite_ids (gid readable : Bool) (buf : List UInt8) :
    (nsUserMapWrite p gid readable buf).2.ids = p.ids := by
  unfold nsUserMapWrite
  split_ifs <;> rfl

theorem credStep_ids (c : CredCall) (h : v ∈ (credStep p c).ids) :
    v ∈ p.ids ∨ nsUserIsRoot p = true ∧ v ∈ c.stores := by
  cases c with
  | unshareUser mem => exact Or.inl (nsUnshareUser_ids mem ▸ h)
  | userMapWrite gid readable buf => exact Or.inl (nsUserMapWrite_ids gid readable buf ▸ h)
  | setuid uid => exact setuid_ids uid h
  | setreuid ruid euid => exact setreuid_ids ruid euid h
  | setresuid ruid euid suid => exact setresuid_ids ruid euid suid h
  | setfsuid uid => exact setfsuid_ids uid h

theorem setRuid_userNs (ruid : UInt32) : (setRuid p ruid).userNs = p.userNs := by
  unfold setRuid
  split <;> rfl

theorem setEuid_userNs (euid : UInt32) : (setEuid p euid).userNs = p.userNs := by
  unfold setEuid
  rw [credDropCapsForUid_userNs]
  split <;> rfl

theorem setSuid_userNs (suid : UInt32) : (setSuid p suid).userNs = p.userNs := by
  unfold setSuid
  split <;> rfl

theorem userNs_of_stores (c : CredCall) (h : v ∈ c.stores) : (credStep p c).userNs = p.userNs := by
  cases c with
  | unshareUser mem => cases h
  | userMapWrite gid readable buf => cases h
  | setuid uid =>
    rw [credStep, run, sysSetuid]
    split_ifs
    · rw [credDropCapsForUid_userNs]
    · rfl
    · rw [credDropCapsForUid_userNs]
  | setreuid ruid euid =>
    rw [credStep, run, sysSetreuid]
    split_ifs
    · rfl
    · rfl
    · exact (setEuid_userNs euid).trans (setRuid_userNs ruid)
  | setresuid ruid euid suid =>
    simp only [credStep, run, sysSetresuid]
    split_ifs
    · rfl
    · rw [setSuid_userNs, setEuid_userNs, setRuid_userNs]
  | setfsuid uid =>
    rw [credStep, run, sysSetfsuid]
    split_ifs <;> rfl

theorem stores_of_root (hroot : nsUserIsRoot p = true) (c : CredCall) (h : v ∈ c.stores) :
    v ∈ (credStep p c).ids := by
  cases c with
  | unshareUser mem => cases h
  | userMapWrite gid readable buf => cases h
  | setuid uid =>
    obtain rfl := mem_singleton.mp h
    rw [credStep, run, sysSetuid, if_pos hroot, credDropCapsForUid_ids]
    exact mem_cons_self ..
  | setreuid ruid euid =>
    simp only [stores, mem_filter, mem_cons, not_mem_nil, or_false,
      decide_eq_true_eq] at h
    simp only [credStep, run, sysSetreuid, hroot, Bool.not_true, Bool.false_and,
      Bool.false_eq_true, if_false, mem_ids, setEuid_uid]
    obtain ⟨rfl | rfl, hk⟩ := h
    · exact Or.inl (setRuid_uid hk).symm
    · exact Or.inr (Or.inl (setEuid_euid hk).symm)
  | setresuid ruid euid suid =>
    simp only [stores, mem_filter, mem_cons, not_mem_nil, or_false,
      decide_eq_true_eq] at h
    simp only [credStep, run, sysSetresuid, hroot, Bool.not_true, Bool.false_and,
      Bool.false_eq_true, if_false, mem_ids, setSuid_uid, setEuid_uid, setSuid_euid]
    obtain ⟨rfl | rfl | rfl, hk⟩ := h
    · exact Or.inl (setRuid_uid hk).symm
    · exact Or.inr (Or.inl (setEuid_euid hk).symm)
    · exact Or.inr (Or.inr (Or.inl (setSuid_suid hk).symm))
  | setfsuid uid =>
    simp only [stores, mem_filter, mem_singleton, decide_eq_true_eq] at h
    obtain ⟨rfl, hk⟩ := h
    rw [credStep, run, sysSetfsuid, if_neg hk, if_pos (Or.inl hroot)]
    exact mem_ids.mpr (Or.inr (Or.inr (Or.inr rfl)))

end

def HeldDuring (p : Cred) (calls : List CredCall) (v : UInt32) : Prop :=
  ∃ pre, pre <+: calls ∧ v ∈ (exec credStep p pre).ids

/-- The process holds only ids it held before or that its namespace maps to one, and never the
host's root. -/
def Confined (p : Cred) (calls : List CredCall) : Prop :=
  ∀ pre c, pre ++ [c] <+: calls → ∀ v ∈ (exec credStep p (pre ++ [c])).ids,
    v ≠ 0 ∧ (HeldDuring p pre v ∨
      ∃ k, nsLocalToKuid (exec credStep p (pre ++ [c])).userNs v = some k ∧ HeldDuring p pre k)

/-- A setter called by namespace root is given only ids the process holds. -/
def StoresHeld (p : Cred) (c : CredCall) : Prop :=
  nsUserIsRoot p = true → ∀ v ∈ c.stores, v ∈ p.ids

def Only (u : UInt32) (p : Cred) : Prop := ∀ v ∈ p.ids, v = u

variable {u : UInt32} {p : Cred}

theorem Only.mem (h : Only u p) : u ∈ p.ids := by
  have huid : p.uid ∈ p.ids := mem_cons_self ..
  rwa [h _ huid] at huid

theorem Only.step {c : CredCall} (h : Only u p) (hc : StoresHeld p c) : Only u (credStep p c) := by
  intro v hv
  rcases credStep_ids c hv with hv | ⟨hroot, hv⟩
  · exact h v hv
  · exact h v (hc hroot v hv)

theorem eq_zero_of_nsLocalToKuid {v : UInt32} (hroot : nsUserIsRoot p = true)
    (h : nsLocalToKuid p.userNs v = some p.euid) : v = 0 := by
  rw [nsUserIsRoot, nsUidToLocal_of_nsLocalToKuid h] at hroot
  simpa using hroot

theorem only_heldDuring {u v : UInt32} {calls : List CredCall}
    (h : Always credStep (Only u) p calls) (hv : HeldDuring p calls v) : v = u := by
  obtain ⟨pre, hpre, hmem⟩ := hv
  exact h pre hpre v hmem

theorem Confined.always_only {calls : List CredCall}
    (h : Confined p calls) (h₀ : Only u p) : Always credStep (Only u) p calls := by
  induction calls using List.reverseRecOn with
  | nil => exact always_nil.mpr h₀
  | append_singleton calls c ih =>
    have hall := ih fun pre c' hp => h pre c' (hp.trans (prefix_append calls [c]))
    refine always_concat.mpr ⟨hall, fun v hv => ?_⟩
    have honly : Only u (exec credStep p calls) := hall calls prefix_rfl
    obtain ⟨hne, hheld⟩ := h calls c prefix_rfl v hv
    rw [exec_concat] at hv hheld
    rcases credStep_ids c hv with hv | ⟨hroot, hv⟩
    · exact honly v hv
    · rcases hheld with hheld | ⟨k, hk, hheld⟩
      · exact only_heldDuring hall hheld
      · have heuid : (exec credStep p calls).euid = u := honly _ (by simp [Cred.ids])
        rw [userNs_of_stores c hv, only_heldDuring hall hheld, ← heuid] at hk
        exact absurd (eq_zero_of_nsLocalToKuid hroot hk) hne

/-- A process of one user other than root is confined in exactly the runs in which it never uses the
privilege of its namespace to store an id it does not hold. -/
theorem userns_confined_iff {u : UInt32} (hu : u ≠ 0) {p : Cred} (hp : p.ids = [u, u, u, u])
    (calls : List CredCall) : Confined p calls ↔ Along credStep StoresHeld p calls := by
  have h₀ : Only u p := by
    intro v hv
    rw [hp] at hv
    simpa using hv
  constructor
  · intro h pre c hpre hroot v hv
    have hall := h.always_only h₀
    have hmem := stores_of_root hroot c hv
    have hv : v = u := hall (pre ++ [c]) hpre v (by rwa [exec_concat])
    rw [hv]
    exact (hall pre ((prefix_append pre [c]).trans hpre)).mem
  · intro h pre c hpre v hv
    have hall := h.always h₀ fun q c hq hc => hq.step hc
    have hv : v = u := hall (pre ++ [c]) hpre v hv
    rw [hv]
    exact ⟨hu, Or.inl ⟨[], nil_prefix, h₀.mem⟩⟩

def unprivileged (u : UInt32) : Cred := ⟨u, u, u, u, 0, 0, 0, false, false, initUserNs⟩

-- "0 1000 1" written to the process's own uid_map
def takeRoot : List CredCall :=
  [.unshareUser true, .userMapWrite false true [48, 32, 49, 48, 48, 48, 32, 49], .setuid 0]

theorem takeRoot_ids : (exec credStep (unprivileged 1000) takeRoot).ids = [0, 0, 0, 0] := by
  decide

theorem takeRoot_not_confined : ¬ Confined (unprivileged 1000) takeRoot := by
  intro h
  have hids : (0 : UInt32) ∈ (exec credStep (unprivileged 1000) takeRoot).ids := by
    rw [takeRoot_ids]
    exact mem_cons_self ..
  exact (h (takeRoot.take 2) (.setuid 0) prefix_rfl 0 hids).1 rfl

theorem userns_confined_setuid_self :
    Confined (unprivileged 1000) (takeRoot.take 2 ++ [.setuid 1000]) := by
  refine (userns_confined_iff (u := 1000) (by decide) rfl _).mpr ?_
  have hmaps : Along credStep StoresHeld (unprivileged 1000) (takeRoot.take 2) :=
    along_concat.mpr ⟨along_concat.mpr ⟨along_nil, fun _ _ hv => nomatch hv⟩,
      fun _ _ hv => nomatch hv⟩
  refine along_concat.mpr ⟨hmaps, fun _ v hv => ?_⟩
  rw [mem_singleton.mp hv]
  decide

end Kyronix.Proc
