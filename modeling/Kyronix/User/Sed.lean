import Kyronix.Fs.Path

/-! Address ranges of `sed` (`sed.c`). Each command keeps one bit from line to line; what `regexec`
and `do_subst` make of a line is left open. -/
namespace Kyronix.User.Sed

open List Fs

inductive Addr
  | line (n : ℕ)
  | last
  | regex (re : Text → Bool)

inductive Act
  | d
  | p
  | s (subst : Text → Option Text) (print : Bool)

/-- A missing address is `none`; there is a second one only after a first. -/
structure Cmd where
  a1 : Option Addr
  a2 : Option Addr
  act : Act
  inRange : Bool := false

def addrMatchSingle (a : Addr) (line : Text) (lineno total : ℕ) : Bool :=
  match a with
  | .line n => lineno == n
  | .last => lineno == total
  | .regex re => re line

def closesAtOnce (a : Addr) (line : Text) (lineno : ℕ) : Bool :=
  match a with
  | .line n => n ≤ lineno
  | .last => false
  | .regex re => re line

def cmdApplies (c : Cmd) (line : Text) (lineno total : ℕ) : Bool × Bool :=
  match c.a1, c.a2 with
  | none, _ => (true, c.inRange)
  | some a, none => (addrMatchSingle a line lineno total, c.inRange)
  | some a, some b =>
    if c.inRange = false then
      if addrMatchSingle a line lineno total = false then (false, false)
      else (true, !closesAtOnce b line lineno)
    else (true, !addrMatchSingle b line lineno total)

/-- A command was tried on a line: its range bit before, and what `cmd_applies` made of it. -/
structure Check where
  inRange : Bool
  line : Text
  lineno : ℕ
  result : Bool × Bool

structure Cycle where
  cmds : List Cmd
  line : Text
  deleted : Bool := false
  out : List Text := []
  log : List Check := []

def Cycle.after (r : Cycle) (c : Cmd) (k : Check) (out : List Text) : Cycle :=
  { r with cmds := c :: r.cmds, out := out ++ r.out, log := k :: r.log }

def runCmds (lineno total : ℕ) : List Cmd → Text → Cycle
  | [], line => { cmds := [], line := line }
  | c :: cs, line =>
    let r := cmdApplies c line lineno total
    let c' := { c with inRange := r.2 }
    let k := ⟨c.inRange, line, lineno, r⟩
    if r.1 = false then (runCmds lineno total cs line).after c' k []
    else match c.act with
      | .d => { cmds := c' :: cs, line := line, deleted := true, log := [k] }
      | .p => (runCmds lineno total cs line).after c' k [line]
      | .s subst print =>
        match subst line with
        | none => (runCmds lineno total cs line).after c' k []
        | some new => (runCmds lineno total cs new).after c' k (if print = true then [new] else [])

def processFrom (suppress : Bool) (total : ℕ) :
    ℕ → List Text → List Cmd → List Text × List (List Check)
  | _, [], _ => ([], [])
  | ln, line :: lines, cmds =>
    let r := runCmds (ln + 1) total cmds line
    let rest := processFrom suppress total (ln + 1) lines r.cmds
    (r.out ++ (if r.deleted = true ∨ suppress = true then [] else [r.line]) ++ rest.1,
      r.log :: rest.2)

/-- What is printed, and beside it what was tried on each line. -/
def processLines (suppress : Bool) (lines : List Text) (cmds : List Cmd) :
    List Text × List (List Check) :=
  processFrom suppress lines.length 0 lines (cmds.map ({ · with inRange := false }))

def checksOf (i : ℕ) (log : List (List Check)) : List Check := log.filterMap (·[i]?)

/-! The rule of POSIX. -/

def Addr.Means (total lineno : ℕ) (line : Text) : Addr → Prop
  | .line n => lineno = n
  | .last => lineno = total
  | .regex re => re line = true

instance (total lineno : ℕ) (line : Text) (a : Addr) : Decidable (a.Means total lineno line) :=
  match a with
  | .line n => inferInstanceAs (Decidable (lineno = n))
  | .last => inferInstanceAs (Decidable (lineno = total))
  | .regex re => inferInstanceAs (Decidable (re line = true))

/-- An end other than a number is looked for only in a range that was open before. -/
def goesOn (inside : Bool) (b : Addr) (line : Text) (lineno total : ℕ) : Bool :=
  match b with
  | .line n => lineno < n
  | .last => !(inside && lineno == total)
  | .regex re => !(inside && re line)

/-- Whether a line is selected, and whether the range is open after it. -/
def posixStep (a b : Addr) (total : ℕ) (inside : Bool) (lineno : ℕ) (line : Text) : Bool × Bool :=
  if inside = true ∨ a.Means total lineno line then (true, goesOn inside b line lineno total)
  else (false, false)

def posixRange (a b : Addr) (total : ℕ) : Bool → List (ℕ × Text) → List (Bool × Bool)
  | _, [] => []
  | inside, (lineno, line) :: rest =>
    let r := posixStep a b total inside lineno line
    r :: posixRange a b total r.2 rest

/-- No range opens at a line that the expression at its end matches, and none is open past the
number at its end. -/
def Check.Clear (a b : Addr) (total : ℕ) (k : Check) : Prop :=
  match b with
  | .line n => k.inRange = true → k.lineno ≤ n
  | .last => True
  | .regex re => k.inRange = false → a.Means total k.lineno k.line → re k.line = false

instance (a b : Addr) (total : ℕ) (k : Check) : Decidable (k.Clear a b total) :=
  match b with
  | .line _ => inferInstanceAs (Decidable (_ → _))
  | .last => inferInstanceAs (Decidable True)
  | .regex _ => inferInstanceAs (Decidable (_ → _ → _))

variable {c : Cmd} {a b : Addr} {line : Text} {lineno total i : ℕ}

theorem addrMatchSingle_eq (a : Addr) (line : Text) (lineno total : ℕ) :
    addrMatchSingle a line lineno total = decide (a.Means total lineno line) := by
  rw [Bool.eq_iff_iff, decide_eq_true_eq]
  cases a <;> simp [addrMatchSingle, Addr.Means]

/-- One check goes by the rule exactly if it is clear. -/
theorem cmdApplies_eq_iff (ha : c.a1 = some a) (hb : c.a2 = some b) {r : Bool × Bool} :
    cmdApplies c line lineno total = posixStep a b total c.inRange lineno line ↔
      Check.Clear a b total ⟨c.inRange, line, lineno, r⟩ := by
  simp only [cmdApplies, ha, hb, posixStep, addrMatchSingle_eq a]
  cases hin : c.inRange with
  | false =>
    by_cases hm : a.Means total lineno line
    · cases b with
      | line n => simp [hm, closesAtOnce, goesOn, Check.Clear, ← decide_not]
      | last => simp [hm, closesAtOnce, goesOn, Check.Clear]
      | regex re => simp [hm, closesAtOnce, goesOn, Check.Clear]
    · cases b <;> simp [hm, Check.Clear]
  | true =>
    cases b with
    | line n =>
      simp [goesOn, Check.Clear, addrMatchSingle, Bool.eq_iff_iff (b := decide _)]
    | last => simp [goesOn, Check.Clear, addrMatchSingle]
    | regex re => simp [goesOn, Check.Clear, addrMatchSingle]

theorem runCmds_get {cs : List Cmd} (hc : cs[i]? = some c) (line : Text) :
    let r := runCmds lineno total cs line
    r.log[i]? = none ∧ r.cmds[i]? = some c ∨
      ∃ text, let b := cmdApplies c text lineno total
        r.log[i]? = some ⟨c.inRange, text, lineno, b⟩ ∧
          r.cmds[i]? = some { c with inRange := b.2 } := by
  fun_induction runCmds lineno total cs line generalizing i
  case case1 => cases hc
  case case3 =>
    cases i with
    | zero =>
      cases hc
      exact .inr ⟨_, rfl, rfl⟩
    | succ i => exact .inl ⟨rfl, hc⟩
  case case2 ih | case4 ih | case5 ih | case6 ih =>
    cases i with
    | zero =>
      cases hc
      exact .inr ⟨_, rfl, rfl⟩
    | succ i => exact ih hc

theorem processFrom_follows_iff (suppress : Bool) (ha : c.a1 = some a) (hb : c.a2 = some b)
    (ln : ℕ) (lines : List Text) {cs : List Cmd} (hc : cs[i]? = some c) :
    let log := checksOf i (processFrom suppress total ln lines cs).2
    log.map Check.result =
        posixRange a b total c.inRange (log.map fun k => (k.lineno, k.line)) ↔
      ∀ k ∈ log, k.Clear a b total := by
  induction lines generalizing ln cs c with
  | nil => simp [processFrom, checksOf, posixRange]
  | cons line lines ih =>
    simp only [processFrom, checksOf] at ih ⊢
    rcases runCmds_get hc line with ⟨hlog, hcmds⟩ | ⟨text, hlog, hcmds⟩
    · rw [filterMap_cons_none (f := fun x : List Check => x[i]?) hlog]
      exact ih ha hb (ln + 1) hcmds
    · rw [filterMap_cons_some (f := fun x : List Check => x[i]?) hlog]
      have hstep := ih (c := { c with inRange := (cmdApplies c text (ln + 1) total).2 }) ha hb
        (ln + 1) hcmds
      simp only [map_cons, posixRange, cons.injEq, forall_mem_cons]
      rw [← hstep, ← cmdApplies_eq_iff ha hb]
      -- the rest starts from the bit that both leave
      refine and_congr_right fun heq => ?_
      rw [heq]

/-- On the lines it is tried on, a command with two addresses selects what the rule does and keeps
its range open as the rule does, exactly if every one of these checks is clear. -/
theorem ranges_follow_posix_iff (suppress : Bool) (lines : List Text) (cmds : List Cmd)
    (hc : cmds[i]? = some c) (ha : c.a1 = some a) (hb : c.a2 = some b) :
    let log := checksOf i (processLines suppress lines cmds).2
    log.map Check.result =
        posixRange a b lines.length false (log.map fun k => (k.lineno, k.line)) ↔
      ∀ k ∈ log, k.Clear a b lines.length := by
  refine processFrom_follows_iff suppress (c := { c with inRange := false }) ha hb 0 lines ?_
  rw [getElem?_map, hc]
  rfl

theorem ranges_follow_posix_iff_both :
    let is x : Addr := .regex (· == x)
    let log := (processLines true [['a'], ['b'], ['c']]
      [⟨some (is ['a']), some (is ['b']), .p, false⟩,
        ⟨some (is ['b']), some (.line 3), .p, false⟩]).2
    (checksOf 0 log).map Check.result = [(true, true), (true, false), (false, false)] ∧
      (checksOf 1 log).map Check.result = [(false, false), (true, true), (true, false)] :=
  ⟨((ranges_follow_posix_iff true _ _ rfl rfl rfl).mpr (by decide)).trans (by decide),
    ((ranges_follow_posix_iff true _ _ rfl rfl rfl).mpr (by decide)).trans (by decide)⟩

/-- The range from `a` to `a` ends where it opens, and after `2d` the range `1,2` has no end. -/
theorem ranges_misread :
    let is x : Addr := .regex (· == x)
    let again := processLines true [['a'], ['b']] [⟨some (is ['a']), some (is ['a']), .p, false⟩]
    let skipped := processLines true [['a'], ['b'], ['c'], ['d']]
      [⟨some (.line 2), none, .d, false⟩, ⟨some (.line 1), some (.line 2), .p, false⟩]
    (checksOf 0 again.2).map (·.result.1) = [true, false] ∧
      (posixRange (is ['a']) (is ['a']) 2 false
        ((checksOf 0 again.2).map fun k => (k.lineno, k.line))).map Prod.fst = [true, true] ∧
    (checksOf 1 skipped.2).map (·.result.1) = [true, true, true] ∧
      (posixRange (.line 1) (.line 2) 4 false
        ((checksOf 1 skipped.2).map fun k => (k.lineno, k.line))).map Prod.fst =
          [true, true, false] := by
  decide

end Kyronix.User.Sed
