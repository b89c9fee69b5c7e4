import Kyronix.Fs.Path

/-! Lists of commands in a line of the shell (`ksh.c`): `split_logic` cuts the line at `&&`, `||`
and `;`, and `run_line_logic` runs the segments as the last status says. -/
namespace Kyronix.User.Ksh

open List Fs

inductive Conn
  | first
  | and
  | or
  | seq
  deriving DecidableEq

abbrev Seg := Conn × Text

def maxLine : ℕ := 4096

def isspace (c : Char) : Bool := c ∈ [' ', '\t', '\n', '\x0b', '\x0c', '\r']

def trim (t : Text) : Text := ((t.dropWhile isspace).reverse.dropWhile isspace).reverse

def push (buf : Text) (c : Char) : Text := if buf.length < maxLine - 1 then buf ++ [c] else buf

def flush (max : ℕ) (segs : List Seg) (conn : Conn) (buf : Text) : List Seg :=
  if trim buf ≠ [] ∧ segs.length < max then segs ++ [(conn, trim buf)] else segs

def scan (max : ℕ) : Text → Option Char → ℕ → Conn → Text → List Seg → List Seg
  | [], _, _, conn, buf, segs => flush max segs conn buf
  | c :: p, some q, depth, conn, buf, segs =>
    scan max p (if c = q then none else some q) depth conn (push buf c) segs
  | '\\' :: d :: p, none, depth, conn, buf, segs =>
    scan max p none depth conn (if buf.length < maxLine - 2 then buf ++ ['\\', d] else buf) segs
  | '&' :: '&' :: p, none, 0, conn, buf, segs => scan max p none 0 .and [] (flush max segs conn buf)
  | '|' :: '|' :: p, none, 0, conn, buf, segs => scan max p none 0 .or [] (flush max segs conn buf)
  | ';' :: p, none, 0, conn, buf, segs => scan max p none 0 .seq [] (flush max segs conn buf)
  | c :: p, none, depth, conn, buf, segs =>
    if c = '\'' ∨ c = '"' then scan max p (some c) depth conn (push buf c) segs
    else
      scan max p none (if c = '(' then depth + 1 else if c = ')' then depth - 1 else depth) conn
        (push buf c) segs

def splitLogic (line : Text) (max : ℕ) : List Seg := scan max line none 0 .first [] []

/-- The status and the commands that were run; a status may depend on all that was run before. -/
abbrev Ran := ℤ × List Text

variable (run : List Text → Text → ℤ)

def exec (s : Ran) (c : Text) : Ran := (run s.2 c, s.2 ++ [c])

def runSeg (s : Ran) (seg : Seg) : Ran :=
  if seg.1 = .and ∧ s.1 ≠ 0 then s
  else if seg.1 = .or ∧ s.1 = 0 then s
  else exec run s seg.2

def runLineLogic (line : Text) : Ran := (splitLogic line 32).foldl (runSeg run) (0, [])

inductive AndOr
  | cmd (c : Text)
  | and (l : AndOr) (c : Text)
  | or (l : AndOr) (c : Text)

/-- What is left before the blanks at the end; an escaped blank is part of the command. -/
def cutEnd : Text → Text
  | [] => []
  | '\\' :: d :: t => '\\' :: d :: cutEnd t
  | c :: t => if c ∈ [' ', '\t'] ∧ cutEnd t = [] then [] else c :: cutEnd t

def cut (t : Text) : Text := cutEnd (t.dropWhile fun c => c = ' ' ∨ c = '\t')

def AndOr.eval (s : Ran) : AndOr → Ran
  | cmd c => exec run s (cut c)
  | and l c => if (l.eval s).1 = 0 then exec run (l.eval s) (cut c) else l.eval s
  | or l c => if (l.eval s).1 = 0 then l.eval s else exec run (l.eval s) (cut c)

def evalList (ls : List AndOr) : Ran := ls.foldl (AndOr.eval run) (0, [])

def AndOr.segs (k : Conn) : AndOr → List Seg
  | cmd c => [(k, c)]
  | and l c => l.segs k ++ [(.and, c)]
  | or l c => l.segs k ++ [(.or, c)]

def listSegs : List AndOr → List Seg
  | [] => []
  | l :: ls => l.segs .first ++ ls.flatMap (AndOr.segs .seq)

def opText : Conn → Text
  | .first => []
  | .and => ['&', '&']
  | .or => ['|', '|']
  | .seq => [';']

def lineOf (segs : List Seg) : Text := segs.flatMap fun s => opText s.1 ++ s.2

def special : List Char := ['\'', '"', '\\', '(', ')', ';', '&', '|']

/-- What stands in double quotes, where a backslash goes with the character after it. -/
inductive Escapes : Text → Prop
  | nil : Escapes []
  | plain {c t} : c ≠ '\\' → Escapes t → Escapes (c :: t)
  | escape {c t} : Escapes t → Escapes ('\\' :: c :: t)

/-- The text of a command, or of what may stand in parentheses. No double quote is escaped in
double quotes. -/
inductive Whole : Bool → Text → Prop
  | nil {b} : Whole b []
  | plain {b c t} : c ∉ special → Whole b t → Whole b (c :: t)
  | escape {b c t} : Whole b t → Whole b ('\\' :: c :: t)
  | quoted {b q s t} : q = '\'' ∨ q = '"' ∧ Escapes s → q ∉ s → Whole b t →
    Whole b (q :: (s ++ q :: t))
  | single {b c d t} : c ∈ ['&', '|'] → c ≠ d → Whole b (d :: t) → Whole b (c :: d :: t)
  | paren {b s t} : Whole true s → Whole b t → Whole b ('(' :: (s ++ ')' :: t))
  | op {c t} : c ∈ [';', '&', '|'] → Whole true t → Whole true (c :: t)

variable {run} {max depth : ℕ} {conn : Conn} {buf rest : Text} {segs : List Seg}

theorem push_of_lt {c : Char} {n : ℕ} (h : buf.length + (n + 1) < maxLine) :
    push buf c = buf ++ [c] := if_pos (by omega)

theorem scan_quoted {q : Char} {s : Text} (hs : q ∉ s)
    (h : buf.length + s.length + 1 < maxLine) :
    scan max (s ++ q :: rest) (some q) depth conn buf segs =
      scan max rest none depth conn (buf ++ s ++ [q]) segs := by
  induction s generalizing buf with
  | nil => rw [nil_append, scan, if_pos rfl, push_of_lt (n := 0) (by simpa using h), append_nil]
  | cons c s ih =>
    obtain ⟨hc, hs⟩ := not_or.mp (mem_cons.not.mp hs)
    rw [length_cons] at h
    rw [cons_append, scan, if_neg (Ne.symm hc), push_of_lt (n := s.length) (by omega),
      ih hs (by simp; omega)]
    simp

theorem scan_plain {c : Char} {n : ℕ} (hq : c ≠ '\'' ∧ c ≠ '"' ∧ c ≠ '\\')
    (hop : c ∈ [';', '&', '|'] → depth ≠ 0 ∨ c ≠ ';' ∧ rest.head? ≠ some c)
    (h : buf.length + (n + 1) < maxLine) :
    scan max (c :: rest) none depth conn buf segs =
      scan max rest none (if c = '(' then depth + 1 else if c = ')' then depth - 1 else depth) conn
        (buf ++ [c]) segs := by
  rw [← push_of_lt h, scan, if_neg (by simp [hq.1, hq.2.1])]
  · exact fun _ _ hc _ => hq.2.2 hc
  · rintro p rfl rfl rfl
    simpa using hop (by simp)
  · rintro p rfl rfl rfl
    simpa using hop (by simp)
  · rintro rfl rfl
    simpa using hop (by simp)

theorem scan_whole {b : Bool} {t : Text} (ht : Whole b t) (hb : b = true → depth ≠ 0)
    (h : buf.length + t.length < maxLine) :
    scan max (t ++ rest) none depth conn buf segs =
      scan max rest none depth conn (buf ++ t) segs := by
  induction ht generalizing depth buf rest with
  | nil => simp
  | @plain b c t hc _ ih =>
    rw [length_cons] at h
    simp only [special, mem_cons, not_mem_nil, or_false, not_or] at hc
    rw [cons_append, scan_plain (n := t.length) ⟨hc.1, hc.2.1, hc.2.2.1⟩ (by simp [hc]) h,
      if_neg hc.2.2.2.1, if_neg hc.2.2.2.2.1, ih hb (by simp; omega)]
    simp
  | @escape b c t _ ih =>
    simp only [length_cons] at h
    rw [cons_append, cons_append, scan, if_pos (by omega), ih hb (by simp; omega)]
    simp
  | @quoted b q s t hq hs _ ih =>
    simp only [length_cons, length_append] at h
    have hopen : scan max (q :: (s ++ q :: (t ++ rest))) none depth conn buf segs =
        scan max (s ++ q :: (t ++ rest)) (some q) depth conn (buf ++ [q]) segs := by
      rcases hq with rfl | ⟨rfl, -⟩ <;>
        rw [scan, if_pos (by simp), push_of_lt (n := s.length + t.length + 1) (by omega)] <;> simp
    rw [cons_append, append_assoc, cons_append, hopen, scan_quoted hs (by simp; omega),
      ih hb (by simp; omega)]
    simp
  | @single b c d t hc hne _ ih =>
    simp only [length_cons] at h
    simp only [mem_cons, not_mem_nil, or_false] at hc
    have hplain : c ≠ '\'' ∧ c ≠ '"' ∧ c ≠ '\\' ∧ c ≠ '(' ∧ c ≠ ')' ∧ c ≠ ';' := by
      rcases hc with rfl | rfl <;> decide
    rw [cons_append, scan_plain (n := t.length + 1) ⟨hplain.1, hplain.2.1, hplain.2.2.1⟩
      (fun _ => .inr ⟨hplain.2.2.2.2.2, by simpa using hne.symm⟩) h, if_neg hplain.2.2.2.1,
      if_neg hplain.2.2.2.2.1, ih hb (by simp; omega)]
    simp
  | @paren b s t _ _ ihs iht =>
    simp only [length_cons, length_append] at h
    rw [cons_append, append_assoc, cons_append,
      scan_plain (n := s.length + t.length) (by decide) (by simp) (by omega), if_pos rfl,
      ihs (by simp) (by simp; omega),
      scan_plain (n := t.length) (by decide) (by simp) (by simp; omega)]
    simp only [Char.reduceEq, if_false, if_true, Nat.add_sub_cancel]
    rw [iht hb (by simp; omega)]
    simp
  | @op c t hc _ ih =>
    rw [length_cons] at h
    have hpos := hb rfl
    have hne : c ≠ '\'' ∧ c ≠ '"' ∧ c ≠ '\\' ∧ c ≠ '(' ∧ c ≠ ')' := by
      simp only [mem_cons, not_mem_nil, or_false] at hc
      rcases hc with rfl | rfl | rfl <;> decide
    rw [cons_append, scan_plain (n := t.length) ⟨hne.1, hne.2.1, hne.2.2.1⟩
      (fun _ => .inl hpos) h, if_neg hne.2.2.2.1, if_neg hne.2.2.2.2, ih hb (by simp; omega)]
    simp

theorem take_take_append {α : Type*} (n : ℕ) (l m : List α) :
    (l.take n ++ m).take n = (l ++ m).take n := by
  rw [take_append, take_append, take_take, min_self, length_take]
  congr 2
  omega

theorem flush_eq_take (hbuf : trim buf ≠ []) (h : segs.length ≤ max) :
    flush max segs conn buf = (segs ++ [(conn, trim buf)]).take max := by
  by_cases hlt : segs.length < max
  · rw [flush, if_pos ⟨hbuf, hlt⟩, take_of_length_le (by simpa using hlt)]
  · rw [flush, if_neg fun hand => hlt hand.2, take_left' (by omega)]

theorem scan_segs (hsegs : ∀ s ∈ segs, s.1 ≠ .first ∧ Whole false s.2 ∧ trim s.2 ≠ [] ∧
    s.2.length < maxLine) {done : List Seg} (hbuf : trim buf ≠ []) (h : done.length ≤ max) :
    scan max (lineOf segs) none 0 conn buf done =
      (done ++ (conn, trim buf) :: segs.map fun s => (s.1, trim s.2)).take max := by
  induction segs generalizing conn buf done with
  | nil => exact flush_eq_take hbuf h
  | cons s segs ih =>
    obtain ⟨⟨hk, hwhole, htrim, hlen⟩, htail⟩ := forall_mem_cons.mp hsegs
    obtain ⟨k, c⟩ := s
    have hcut : scan max (opText k ++ (c ++ lineOf segs)) none 0 conn buf done =
        scan max (c ++ lineOf segs) none 0 k [] (flush max done conn buf) := by
      cases k with
      | first => exact absurd rfl hk
      | _ => rfl
    rw [lineOf, flatMap_cons, append_assoc, ← lineOf, hcut, flush_eq_take hbuf h,
      scan_whole hwhole (by simp) (by simpa using hlen), nil_append,
      ih htail htrim (length_take_le ..), take_take_append, append_assoc]
    rfl

theorem segs_cons (l : AndOr) (k : Conn) :
    ∃ c rest, l.segs k = (k, c) :: rest ∧ ∀ s ∈ rest, s.1 ≠ .first := by
  induction l with
  | cmd c => exact ⟨c, [], rfl, by simp⟩
  | and l d ih | or l d ih =>
    obtain ⟨c, rest, heq, hrest⟩ := ih
    refine ⟨c, _, by rw [AndOr.segs, heq, cons_append], fun s hs => ?_⟩
    rcases mem_append.mp hs with hs | hs
    · exact hrest s hs
    · simp_all

theorem flatMap_segs_ne_first {ls : List AndOr} {s : Seg}
    (h : s ∈ ls.flatMap (AndOr.segs .seq)) : s.1 ≠ .first := by
  obtain ⟨l, -, hs⟩ := mem_flatMap.mp h
  obtain ⟨c, rest, heq, hrest⟩ := segs_cons l .seq
  rw [heq] at hs
  rcases mem_cons.mp hs with rfl | hs
  · nofun
  · exact hrest s hs

theorem splitLogic_lineOf {ls : List AndOr}
    (hcmd : ∀ s ∈ listSegs ls, Whole false s.2 ∧ trim s.2 ≠ [] ∧ s.2.length < maxLine) :
    splitLogic (lineOf (listSegs ls)) max =
      ((listSegs ls).map fun s => (s.1, trim s.2)).take max := by
  cases ls with
  | nil => simp [listSegs, lineOf, splitLogic, scan, flush, trim]
  | cons l ls =>
    obtain ⟨c, rest, heq, hrest⟩ := segs_cons l .first
    rw [listSegs, heq, cons_append] at hcmd ⊢
    obtain ⟨⟨hwhole, htrim, hlen⟩, htail⟩ := forall_mem_cons.mp hcmd
    rw [splitLogic, lineOf, flatMap_cons, opText, nil_append, ← lineOf,
      scan_whole hwhole (by simp) (by simpa using hlen), nil_append,
      scan_segs (fun s hs => ⟨?_, htail s hs⟩) htrim (Nat.zero_le _), nil_append, map_cons]
    exact (mem_append.mp hs).elim (hrest s) flatMap_segs_ne_first

theorem foldl_segs (l : AndOr) {k : Conn} (hk : k = .first ∨ k = .seq) (s : Ran) :
    ((l.segs k).map fun s => (s.1, cut s.2)).foldl (runSeg run) s = l.eval run s := by
  induction l with
  | cmd c => rcases hk with rfl | rfl <;> rfl
  | and l c ih | or l c ih =>
    rw [AndOr.segs, map_append, foldl_append, ih]
    by_cases h : (l.eval run s).1 = 0 <;> simp [runSeg, AndOr.eval, h]

theorem foldl_flatMap_segs (ls : List AndOr) (s : Ran) :
    ((ls.flatMap (AndOr.segs .seq)).map fun s => (s.1, cut s.2)).foldl (runSeg run) s =
      ls.foldl (AndOr.eval run) s := by
  induction ls generalizing s with
  | nil => rfl
  | cons l ls ih =>
    rw [flatMap_cons, map_append, foldl_append, foldl_segs l (.inr rfl), ih]
    rfl

theorem evalList_eq (ls : List AndOr) :
    evalList run ls = ((listSegs ls).map fun s => (s.1, cut s.2)).foldl (runSeg run) (0, []) := by
  cases ls with
  | nil => rfl
  | cons l ls =>
    rw [listSegs, map_append, foldl_append, foldl_segs l (.inl rfl), foldl_flatMap_segs]
    rfl

/-- The statuses with which each command runs: it ends as the next connective asks for. -/
def obliging (conns : List Conn) (h : List Text) (_ : Text) : ℤ :=
  if conns[h.length + 1]? = some .or then 1 else 0

theorem foldl_obliging {conns : List Conn} (segs : List Seg) (s : Ran)
    (hst : s.1 = if conns[s.2.length]? = some .or then 1 else 0)
    (hconns : segs.map Prod.fst <+: conns.drop s.2.length) :
    (segs.foldl (runSeg (obliging conns)) s).2 = s.2 ++ segs.map Prod.snd := by
  induction segs generalizing s with
  | nil => exact (append_nil _).symm
  | cons c segs ih =>
    obtain ⟨u, hu⟩ := hconns
    rw [map_cons, cons_append] at hu
    have hc : conns[s.2.length]? = some c.1 := by
      rw [← Nat.add_zero s.2.length, ← getElem?_drop, ← hu]
      rfl
    have hrun : runSeg (obliging conns) s c = exec (obliging conns) s c.2 := by
      rw [hc] at hst
      by_cases hor : c.1 = .or <;> simp [runSeg, hst, hor]
    rw [foldl_cons, hrun, ih (exec (obliging conns) s c.2) (by simp [exec, obliging]) ⟨u, ?_⟩]
    · simp [exec]
    · rw [exec, length_append, length_singleton, ← drop_drop, ← hu]
      rfl

theorem cutEnd_append (t : Text) :
    ∃ b, t = cutEnd t ++ b ∧ ∀ c ∈ b, isspace c = true := by
  fun_induction cutEnd t with
  | case1 => exact ⟨[], rfl, nofun⟩
  | case2 d t ih =>
    obtain ⟨b, hb, hall⟩ := ih
    exact ⟨b, by rw [cons_append, cons_append, ← hb], hall⟩
  | case3 c t _ hc ih =>
    obtain ⟨b, hb, hall⟩ := ih
    rw [hc.2, nil_append] at hb
    subst hb
    refine ⟨_, rfl, forall_mem_cons.mpr ⟨?_, hall⟩⟩
    have hblank := hc.1
    simp only [mem_cons, not_mem_nil, or_false] at hblank
    rcases hblank with rfl | rfl <;> rfl
  | case4 c t _ _ ih =>
    obtain ⟨b, hb, hall⟩ := ih
    exact ⟨b, by rw [cons_append, ← hb], hall⟩

theorem cut_append (t : Text) :
    ∃ a b, t = a ++ cut t ++ b ∧ ∀ c ∈ a ++ b, isspace c = true := by
  obtain ⟨b, hb, hall⟩ := cutEnd_append (t.dropWhile fun c => c = ' ' ∨ c = '\t')
  refine ⟨t.takeWhile fun c => c = ' ' ∨ c = '\t', b, ?_, fun c hc => ?_⟩
  · rw [append_assoc, cut, ← hb, takeWhile_append_dropWhile]
  · rcases mem_append.mp hc with hc | hc
    · have hblank := mem_takeWhile_imp hc
      rcases of_decide_eq_true hblank with rfl | rfl <;> rfl
    · exact hall c hc

/-- A command has no white space at its ends, once unescaped blanks are cut off. -/
def Bare (t : Text) : Prop :=
  (∀ c ∈ t.head?, isspace c = false) ∧ ∀ c ∈ t.getLast?, isspace c = false

theorem dropWhile_of_head {t : Text} (h : ∀ c ∈ t.head?, isspace c = false) :
    t.dropWhile isspace = t := by
  cases t with
  | nil => rfl
  | cons c t => exact dropWhile_cons_of_neg (by simp [h c rfl])

theorem dropWhile_append_of_all {a t : Text} (h : ∀ c ∈ a, isspace c = true) :
    (a ++ t).dropWhile isspace = t.dropWhile isspace := by
  rw [dropWhile_append, dropWhile_eq_nil_iff.mpr h]
  rfl

theorem head_dropWhile (t : Text) : ∀ c ∈ (t.dropWhile isspace).head?, isspace c = false := by
  intro c hc
  have hnot := head?_dropWhile_not isspace t
  rw [hc] at hnot
  exact hnot

theorem bare_trim (t : Text) : Bare (trim t) := by
  refine ⟨fun c hc => head_dropWhile t c ?_, fun c hc => ?_⟩
  · obtain ⟨u, hu⟩ : trim t <+: t.dropWhile isspace := rdropWhile_prefix isspace _
    rw [← hu, head?_append, Option.mem_def.mp hc]
    rfl
  · rw [trim, getLast?_reverse] at hc
    exact head_dropWhile _ c hc

theorem trim_eq_cut_iff (t : Text) : trim t = cut t ↔ Bare (cut t) := by
  refine ⟨fun h => h ▸ bare_trim t, fun ⟨hhead, hlast⟩ => ?_⟩
  obtain ⟨a, b, heq, hall⟩ := cut_append t
  obtain ⟨ha, hb⟩ := forall_mem_append.mp hall
  have hdrop : t.dropWhile isspace = (cut t ++ b).dropWhile isspace := by
    conv_lhs => rw [heq, append_assoc, dropWhile_append_of_all ha]
  rw [trim, hdrop]
  by_cases hnil : cut t = []
  · rw [hnil, nil_append, dropWhile_eq_nil_iff.mpr hb]
    rfl
  · have hhead' : ∀ c ∈ (cut t ++ b).head?, isspace c = false := by
      rwa [head?_append_of_ne_nil _ hnil]
    rw [dropWhile_of_head hhead', reverse_append,
      dropWhile_append_of_all (by simpa using hb),
      dropWhile_of_head (by rwa [head?_reverse]), reverse_reverse]

/-- The whole line runs as the rule says, whatever the commands return, just if it has at most 32
commands, none with an escaped blank at its end. -/
theorem and_or_lists_run_iff (ls : List AndOr)
    (hcmd : ∀ s ∈ listSegs ls, Whole false s.2 ∧ trim s.2 ≠ [] ∧ s.2.length < maxLine) :
    (∀ run, runLineLogic run (lineOf (listSegs ls)) = evalList run ls) ↔
      (listSegs ls).length ≤ 32 ∧ ∀ s ∈ listSegs ls, Bare (cut s.2) := by
  simp only [runLineLogic, splitLogic_lineOf hcmd, evalList_eq]
  constructor
  · -- each command ends as the next one asks for, so that both sides run all that they have
    intro h
    have hfirst : (0 : ℤ) = if ((listSegs ls).map Prod.fst)[0]? = some .or then 1 else 0 := by
      cases ls with
      | nil => rfl
      | cons l ls =>
        obtain ⟨c, rest, heq, -⟩ := segs_cons l .first
        simp [listSegs, heq]
    have hlists := congrArg Prod.snd (h (obliging ((listSegs ls).map Prod.fst)))
    rw [foldl_obliging _ _ hfirst (by simpa [Function.comp_def] using take_prefix ..),
      foldl_obliging _ _ hfirst (by simp [Function.comp_def])] at hlists
    simp only [map_take, map_map, Function.comp_def, nil_append] at hlists
    have hcount : (listSegs ls).length ≤ 32 := by
      simpa using congrArg length hlists
    rw [take_of_length_le (by simpa using hcount)] at hlists
    exact ⟨hcount, fun s hs => (trim_eq_cut_iff s.2).mp (map_inj_left.mp hlists s hs)⟩
  · intro ⟨hcount, hbare⟩ run
    rw [take_of_length_le (by simpa using hcount)]
    congr 1
    exact map_congr_left fun s hs => by rw [(trim_eq_cut_iff s.2).mpr (hbare s hs)]

theorem and_or_lists_run_iff_two :
    (∀ run, runLineLogic run ['a', '|', '|', 'b'] = evalList run [.or (.cmd ['a']) ['b']]) ∧
      ¬ ∀ run, runLineLogic run ['a', '\\', ' '] = evalList run [.cmd ['a', '\\', ' ']] :=
  ⟨(and_or_lists_run_iff [.or (.cmd ['a']) ['b']]
      (by simp [listSegs, AndOr.segs, special, Whole.plain, Whole.nil, maxLine, trim, isspace])).mpr
      (by simp [listSegs, AndOr.segs, Bare, cut, cutEnd, isspace]),
    fun h => absurd ((and_or_lists_run_iff [.cmd ['a', '\\', ' ']]
      (by simp [listSegs, AndOr.segs, special, Whole.plain, Whole.escape, Whole.nil, maxLine, trim,
        isspace])).mp h)
      (by simp [listSegs, AndOr.segs, Bare, cut, cutEnd, isspace])⟩

/-- The last of 33 commands is not run; an escaped quote ends a quotation; and an escaped blank at
the end of a command is cut off. -/
theorem and_or_lists_cut :
    runLineLogic (fun _ _ => 0) (lineOf (listSegs (replicate 33 (.cmd ['a'])))) ≠
        evalList (fun _ _ => 0) (replicate 33 (.cmd ['a'])) ∧
      runLineLogic (fun _ _ => 0) "\"\\\";b\"".toList = (0, ["\"\\\"".toList, "b\"".toList]) ∧
      runLineLogic (fun _ _ => 0) "a\\ ;b".toList ≠
        evalList (fun _ _ => 0) [.cmd "a\\ ".toList, .cmd "b".toList] := by
  decide +kernel

end Kyronix.User.Ksh
