import BLinkTree.Benchmark.Workload
import Mathlib

/-! # The generator of the workload files

`scripts/generate_ycsb`. An input or output file of the script is the list of its lines; an exception,
such as an index behind the columns of a line or a missing key, is `none`.
-/

namespace BLinkTree.Benchmark

open Text

/-- The white space of `str.split`. -/
def isWhitespace (c : Char) : Bool :=
  (9 ≤ c.toNat && c.toNat ≤ 13) || (28 ≤ c.toNat && c.toNat ≤ 32) ||
    c.toNat ∈ [0x85, 0xa0, 0x1680, 0x2028, 0x2029, 0x202f, 0x205f, 0x3000] ||
    (0x2000 ≤ c.toNat && c.toNat ≤ 0x200a)

def split (line : File) : List (List Char) := words isWhitespace line

/-- A loop over the lines of a file that writes any number of lines for each. -/
def rewriteLines (f : File → Option (List File)) : List File → Option (List File)
  | [] => some []
  | line :: lines => (f line).bind fun out => (rewriteLines f lines).map (out ++ ·)

/-- The body of the first loop over the output of YCSB. -/
def loadLine (line : File) : Option (List File) :=
  match split line with
  | [] => some []
  | c :: cols =>
      if c = "INSERT".toList then
        (c :: cols)[2]?.map fun k => [c ++ ' ' :: (k.drop 4 ++ ['\n'])]
      else some []

/-- The body of the second one. -/
def txnLine (line : File) : Option (List File) :=
  (split line)[0]?.bind fun c =>
    if c = "SCAN".toList ∨ c = "INSERT".toList ∨ c = "READ".toList ∨ c = "UPDATE".toList then
      (split line)[2]?.bind fun k =>
        if c = "SCAN".toList then
          (split line)[3]?.map fun numkeys => [c ++ ' ' :: (k.drop 4 ++ ' ' :: (numkeys ++ ['\n']))]
        else some [c ++ ' ' :: (k.drop 4 ++ ['\n'])]
    else some []

/-- `int`, for texts without underscores. -/
def int (s : List Char) : Option Int :=
  let signed := readSign s
  if signed.2 ≠ [] ∧ ∀ c ∈ signed.2, c.isDigit = true then
    some (if signed.1 then -(Nat.ofDigitChars 10 signed.2 0 : Int) else Nat.ofDigitChars 10 signed.2 0)
  else none

def str (n : Nat) : List Char := Nat.toDigits 10 n

/-- The variables `keymap` and `count`. -/
structure Numbering where
  keymap : Int → Option Nat
  count : Nat

def Numbering.start : Numbering := ⟨fun _ => none, 0⟩

def Numbering.add (s : Numbering) (key : Int) : Numbering :=
  ⟨Function.update s.keymap key (some s.count), s.count + 1⟩

/-- The body of the loop over the fill file for `monoint`. -/
def fillLine (s : Numbering) (line : File) : Option (File × Numbering) :=
  (split line)[1]?.bind fun key => (int key).bind fun k =>
    (split line)[0]?.map fun c => (c ++ ' ' :: (str s.count ++ ['\n']), s.add k)

/-- The body of the loop over the mixed file. -/
def mixedLine (s : Numbering) (line : File) : Option (File × Numbering) :=
  (split line)[0]?.bind fun c => (split line)[1]?.bind fun key => (int key).bind fun k =>
    if c = "SCAN".toList then
      (s.keymap k).bind fun n => (split line)[2]?.map fun numkeys =>
        (c ++ ' ' :: (str n ++ ' ' :: (numkeys ++ ['\n'])), s)
    else if c = "INSERT".toList then some (c ++ ' ' :: (str s.count ++ ['\n']), s.add k)
    else (s.keymap k).map fun n => (c ++ ' ' :: (str n ++ ['\n']), s)

/-- A loop that writes one line for each and keeps the numbering. -/
def numberLines (f : Numbering → File → Option (File × Numbering)) (s : Numbering) :
    List File → Option (List File × Numbering)
  | [] => some ([], s)
  | line :: lines => (f s line).bind fun r => (numberLines f r.2 lines).map fun q => (r.1 :: q.1, q.2)

inductive KeyType where
  | randint
  | monoint
  deriving DecidableEq

/-- The fill file and the mixed file for the output of YCSB. -/
def generateYcsb (keyType : KeyType) (ycsbLoad ycsbTxn : List File) :
    Option (List File × List File) :=
  (rewriteLines loadLine ycsbLoad).bind fun load =>
    (rewriteLines txnLine ycsbTxn).bind fun txn =>
      match keyType with
      | .randint => some (load, txn)
      | .monoint =>
          (numberLines fillLine .start load).bind fun fill =>
            (numberLines mixedLine fill.2 txn).map fun mixed => (fill.1, mixed.1)

/-! ## The output of YCSB -/

/-- The columns of a line that YCSB prints for a call: the operation, the table, the key behind
`user`, and for a scan the number of keys. -/
def Shows (line : File) (l : Line) : Prop :=
  ∃ table user rest, user.length = 4 ∧
    split line = l.command.name :: table :: (user ++ l.key.digits) :: (l.command.columns ++ rest)

/-- Any other line. -/
def Other (line : File) : Prop :=
  ∃ c cols, split line = c :: cols ∧ ∀ command : Command, c ≠ command.name

/-- The output of YCSB for some calls. -/
inductive Trace : List File → List Line → Prop
  | nil : Trace [] []
  | call {line : File} {lines : List File} {l : Line} {calls : List Line} :
      Shows line l → Trace lines calls → Trace (line :: lines) (l :: calls)
  | other {line : File} {lines : List File} {calls : List Line} :
      Other line → Trace lines calls → Trace (line :: lines) calls

def insertCalls (calls : List Line) : List Line := calls.filter fun l => l.command.isInsert

theorem isWhitespace_digit {c : Char} (hc : c.isDigit = true) : isWhitespace c = false := by
  have hrange : 48 ≤ c.toNat ∧ c.toNat ≤ 57 := by
    simpa [Char.isDigit, UInt32.le_iff_toNat_le] using hc
  simp [isWhitespace]
  omega

theorem Command.name_mem (c : Command) : c.name = "SCAN".toList ∨ c.name = "INSERT".toList ∨
    c.name = "READ".toList ∨ c.name = "UPDATE".toList := by
  cases c with
  | insert => exact Or.inr (Or.inl rfl)
  | read => exact Or.inr (Or.inr (Or.inl rfl))
  | update => exact Or.inr (Or.inr (Or.inr rfl))
  | scan numkeys => exact Or.inl rfl

theorem Command.name_ne_scan {c : Command} (h : c.operation?.isSome = true) :
    c.name ≠ "SCAN".toList := by
  cases c with
  | scan numkeys => exact absurd h (by simp [operation?])
  | insert => decide
  | read => decide
  | update => decide

theorem Command.name_ne_insert {c : Command} (h : c.isInsert = false) :
    c.name ≠ "INSERT".toList := by
  cases c with
  | insert => exact absurd h (by decide)
  | read => decide
  | update => decide
  | scan numkeys => exact (by decide : "SCAN".toList ≠ "INSERT".toList)

theorem Command.isWord_column (c : Command) : IsWord isWhitespace c.name := by
  cases c with
  | scan numkeys => exact (.of_all (by decide) (by decide) : IsWord isWhitespace "SCAN".toList)
  | _ => exact .of_all (by decide) (by decide)

theorem split_plain {w : List Char} (hw : IsWord isWhitespace w) (key : Numeral) :
    split (w ++ ' ' :: (key.digits ++ ['\n'])) = [w, key.digits] := by
  have hkey : IsWord isWhitespace key.digits := key.isWord fun _ hc => isWhitespace_digit hc
  rw [split, words_append_space (by decide), words_append_space (by decide), words_of_isWord hw,
    words_of_isWord hkey, words_nil]
  rfl

/-- The columns of a written line. -/
theorem split_text (l : Line) :
    split l.text = l.command.name :: l.key.digits :: l.command.columns := by
  rcases l with ⟨c, key⟩
  cases c with
  | scan numkeys =>
      have hword : IsWord isWhitespace "SCAN".toList := (Command.scan numkeys).isWord_column
      rw [text_scan, split, words_append_space (by decide), words_of_isWord hword]
      have hkey : IsWord isWhitespace key.digits := key.isWord fun _ hc => isWhitespace_digit hc
      have hrest := split_plain hkey numkeys
      rw [split] at hrest
      rw [hrest]
      rfl
  | _ =>
      rw [text_plain rfl]
      exact split_plain (Command.isWord_column _) key

/-! ## What the loops write -/

theorem loadLine_call {line : File} {l : Line} (h : Shows line l) :
    loadLine line = some ((insertCalls [l]).map Line.text) := by
  rcases h with ⟨table, user, rest, huser, hsplit⟩
  have hdrop : (user ++ l.key.digits).drop 4 = l.key.digits := List.drop_left' huser
  rw [loadLine, hsplit]
  rcases l with ⟨c, key⟩
  cases c with
  | insert =>
      dsimp only
      rw [if_pos (show Command.name _ = "INSERT".toList from rfl)]
      simp only [List.getElem?_cons_succ, List.getElem?_cons_zero, Option.map_some, insertCalls,
        Command.isInsert, if_true, List.filter_cons, List.filter_nil, List.map_cons, List.map_nil]
      rw [hdrop, text_plain rfl]
  | _ => rfl

theorem loadLine_other {line : File} (h : Other line) : loadLine line = some [] := by
  rcases h with ⟨c, cols, hsplit, hname⟩
  rw [loadLine, hsplit]
  exact if_neg (hname .insert)

theorem txnLine_eq {line : File} {c table k : List Char} {rest : List (List Char)}
    (h : split line = c :: table :: k :: rest) : txnLine line =
    if c = "SCAN".toList ∨ c = "INSERT".toList ∨ c = "READ".toList ∨ c = "UPDATE".toList then
      if c = "SCAN".toList then
        rest[0]?.map fun numkeys => [c ++ ' ' :: (k.drop 4 ++ ' ' :: (numkeys ++ ['\n']))]
      else some [c ++ ' ' :: (k.drop 4 ++ ['\n'])]
    else some [] := by
  rw [txnLine, h]
  rfl

theorem txnLine_call {line : File} {l : Line} (h : Shows line l) : txnLine line = some [l.text] := by
  rcases h with ⟨table, user, rest, huser, hsplit⟩
  have hdrop : (user ++ l.key.digits).drop 4 = l.key.digits := List.drop_left' huser
  rw [txnLine_eq hsplit, hdrop, if_pos l.command.name_mem]
  by_cases hop : l.command.operation?.isSome = true
  · rw [if_neg (Command.name_ne_scan hop), text_plain (Command.columns_of_operation hop)]
  · rcases l with ⟨c, key⟩
    cases c with
    | scan numkeys =>
        rw [if_pos (show Command.name _ = "SCAN".toList from rfl), text_scan]
        rfl
    | _ => exact absurd rfl hop

theorem txnLine_other {line : File} (h : Other line) : txnLine line = some [] := by
  rcases h with ⟨c, cols, hsplit, hname⟩
  have hnot : ¬ (c = "SCAN".toList ∨ c = "INSERT".toList ∨ c = "READ".toList ∨ c = "UPDATE".toList) := by
    rintro (hc | hc | hc | hc)
    · exact hname (.scan (.ofNat 0)) hc
    · exact hname .insert hc
    · exact hname .read hc
    · exact hname .update hc
  rw [txnLine, hsplit]
  exact if_neg hnot

theorem rewriteLines_trace {f : File → Option (List File)} {g : List Line → List Line}
    (hnil : g [] = []) (hcons : ∀ l t, g (l :: t) = g [l] ++ g t)
    (hcall : ∀ line l, Shows line l → f line = some ((g [l]).map Line.text))
    (hother : ∀ line, Other line → f line = some []) {lines : List File} {calls : List Line}
    (h : Trace lines calls) : rewriteLines f lines = some ((g calls).map Line.text) := by
  induction h with
  | nil => rw [rewriteLines, hnil, List.map_nil]
  | @call line lines l calls hl _ ih =>
      rw [rewriteLines, hcall line l hl, ih, hcons l calls, List.map_append]
      rfl
  | other hl _ ih =>
      rw [rewriteLines, hother _ hl, ih]
      rfl

theorem rewriteLines_load {lines : List File} {calls : List Line} (h : Trace lines calls) :
    rewriteLines loadLine lines = some ((insertCalls calls).map Line.text) := by
  refine rewriteLines_trace rfl (fun l t => ?_) (fun _ _ hl => loadLine_call hl)
    (fun _ hl => loadLine_other hl) h
  rw [insertCalls, insertCalls, insertCalls, ← List.filter_append, List.singleton_append]

theorem rewriteLines_txn {lines : List File} {calls : List Line} (h : Trace lines calls) :
    rewriteLines txnLine lines = some (calls.map Line.text) :=
  rewriteLines_trace (g := fun calls => calls) rfl (fun _ _ => rfl) (fun _ _ hl => txnLine_call hl)
    (fun _ hl => txnLine_other hl) h

/-- A line with a key of the numbering. -/
def Numbering.line (s : Numbering) (l : Line) : Option (Line × Numbering) :=
  match l.command with
  | .insert => some (⟨.insert, .ofNat s.count⟩, s.add l.key.value)
  | c => (s.keymap l.key.value).map fun n => (⟨c, .ofNat n⟩, s)

def Numbering.lines (s : Numbering) : List Line → Option (List Line × Numbering)
  | [] => some ([], s)
  | l :: ls => (s.line l).bind fun r => (Numbering.lines r.2 ls).map fun q => (r.1 :: q.1, q.2)

theorem Numbering.line_of_not_insert (s : Numbering) {c : Command} (key : Numeral)
    (hc : c.isInsert = false) :
    s.line ⟨c, key⟩ = (s.keymap key.value).map fun n => (⟨c, .ofNat n⟩, s) := by
  cases c with
  | insert => exact absurd hc (by decide)
  | _ => rfl

theorem Numbering.line_insert_text (s : Numbering) (key : Numeral) :
    ((s.line ⟨.insert, key⟩).map fun r => (r.1.text, r.2)) =
      some ("INSERT".toList ++ ' ' :: (str s.count ++ ['\n']), s.add key.value) := by
  simp only [Numbering.line, Option.map_some]
  rw [text_plain rfl]
  rfl

theorem int_digits (n : Numeral) : int n.digits = some (n.value : Int) := by
  obtain ⟨c, ds, hds⟩ := List.exists_cons_of_ne_nil n.ne_nil
  have hsign : readSign n.digits = (false, n.digits) := by
    rw [hds]
    exact readSign_digit (n.isDigit c (by simp [hds]))
  rw [int, hsign]
  exact if_pos ⟨n.ne_nil, n.isDigit⟩

theorem mixedLine_eq {line : File} {c key : List Char} {k : Int} {rest : List (List Char)}
    (s : Numbering) (h : split line = c :: key :: rest) (hk : int key = some k) :
    mixedLine s line =
    if c = "SCAN".toList then
      (s.keymap k).bind fun n => rest[0]?.map fun numkeys =>
        (c ++ ' ' :: (str n ++ ' ' :: (numkeys ++ ['\n'])), s)
    else if c = "INSERT".toList then some (c ++ ' ' :: (str s.count ++ ['\n']), s.add k)
    else (s.keymap k).map fun n => (c ++ ' ' :: (str n ++ ['\n']), s) := by
  rw [mixedLine, h]
  simp only [List.getElem?_cons_zero, List.getElem?_cons_succ, Option.bind_some, hk]

theorem mixedLine_text (s : Numbering) (l : Line) :
    mixedLine s l.text = (s.line l).map fun r => (r.1.text, r.2) := by
  rw [mixedLine_eq s (split_text l) (int_digits l.key)]
  rcases l with ⟨c, key⟩
  by_cases hop : c.operation?.isSome = true
  · rw [if_neg (Command.name_ne_scan hop)]
    by_cases hc : c.isInsert = true
    · obtain rfl := Command.eq_insert hc
      rw [if_pos (show Command.name _ = "INSERT".toList from rfl)]
      exact (s.line_insert_text key).symm
    · have hc' : c.isInsert = false := by simpa using hc
      rw [if_neg (Command.name_ne_insert hc'), Numbering.line_of_not_insert s key hc', Option.map_map]
      congr 1
      funext n
      simp only [Function.comp_apply, text_plain (l := ⟨c, .ofNat n⟩) (Command.columns_of_operation hop)]
      rfl
  · cases c with
    | scan numkeys =>
        rw [if_pos (show Command.name _ = "SCAN".toList from rfl),
          Numbering.line_of_not_insert s key rfl, Option.map_map]
        cases s.keymap key.value with
        | none => rfl
        | some n =>
            simp only [Option.map_some, Function.comp_apply, text_scan]
            rfl
    | _ => exact absurd rfl hop

theorem fillLine_text (s : Numbering) {l : Line} (hl : l.command.isInsert = true) :
    fillLine s l.text = (s.line l).map fun r => (r.1.text, r.2) := by
  rw [fillLine, split_text]
  simp only [List.getElem?_cons_zero, List.getElem?_cons_succ, Option.bind_some, int_digits,
    Option.map_some]
  rcases l with ⟨c, key⟩
  obtain rfl := Command.eq_insert hl
  exact (s.line_insert_text key).symm

theorem numberLines_text {f : Numbering → File → Option (File × Numbering)} (ls : List Line)
    (hf : ∀ s, ∀ l ∈ ls, f s l.text = (s.line l).map fun r => (r.1.text, r.2)) (s : Numbering) :
    numberLines f s (ls.map Line.text) = (s.lines ls).map fun r => (r.1.map Line.text, r.2) := by
  induction ls generalizing s with
  | nil => rfl
  | cons l ls ih =>
      rw [List.map_cons, numberLines, hf s l (List.mem_cons_self ..), Numbering.lines]
      cases s.line l with
      | none => rfl
      | some r =>
          have hrest := ih (fun s l hl => hf s l (List.mem_cons_of_mem _ hl)) r.2
          simp only [Option.map_some, Option.bind_some, hrest]
          cases r.2.lines ls with
          | none => rfl
          | some q => rfl

/-- No key is inserted twice, and the keys of all other calls have been inserted. -/
def Known : List Nat → List Line → Prop
  | _, [] => True
  | seen, l :: ls =>
      if l.command.isInsert then l.key.value ∉ seen ∧ Known (l.key.value :: seen) ls
      else l.key.value ∈ seen ∧ Known seen ls

/-- The numbering knows the keys. -/
def Numbering.Has (s : Numbering) (seen : List Nat) : Prop :=
  ∀ k ∈ seen, s.keymap (k : Int) ≠ none

theorem Numbering.Has.add {s : Numbering} {seen : List Nat} (h : s.Has seen) (k : Nat) :
    (s.add k).Has (k :: seen) := by
  intro q hq
  show Function.update s.keymap (k : Int) (some s.count) q ≠ none
  by_cases hqk : (q : Int) = k
  · rw [hqk, Function.update_self]
    simp
  · rw [Function.update_of_ne hqk]
    rcases List.mem_cons.mp hq with rfl | hq
    · exact absurd rfl hqk
    · exact h q hq

/-- The loops find every key, and the lines keep their commands. -/
theorem Numbering.lines_of_known {seen : List Nat} {s : Numbering} {ls rest : List Line}
    (hs : s.Has seen) (h : Known seen (ls ++ rest)) :
    ∃ r seen', s.lines ls = some r ∧ r.1.map Line.command = ls.map Line.command ∧
      r.2.Has seen' ∧ Known seen' rest := by
  induction ls generalizing seen s with
  | nil => exact ⟨([], s), seen, rfl, rfl, hs, h⟩
  | cons l ls ih =>
      rcases l with ⟨c, key⟩
      by_cases hc : c.isInsert = true
      · obtain rfl := Command.eq_insert hc
        have hknown : Known (key.value :: seen) (ls ++ rest) := h.2
        rcases ih (hs.add key.value) hknown with ⟨r, seen', hr, hcommands, hrest⟩
        refine ⟨(⟨.insert, .ofNat s.count⟩ :: r.1, r.2), seen', ?_, ?_, hrest⟩
        · simp [Numbering.lines, Numbering.line, hr]
        · simp [hcommands]
      · rw [List.cons_append, Known, if_neg hc] at h
        obtain ⟨n, hn⟩ := Option.ne_none_iff_exists'.mp (hs _ h.1)
        rcases ih hs h.2 with ⟨r, seen', hr, hcommands, hrest⟩
        have hline : s.line ⟨c, key⟩ = some (⟨c, .ofNat n⟩, s) := by
          rw [s.line_of_not_insert key (by simpa using hc), hn]
          rfl
        refine ⟨(⟨c, .ofNat n⟩ :: r.1, r.2), seen', ?_, ?_, hrest⟩
        · simp [Numbering.lines, hline, hr]
        · simp [hcommands]

/-! ## Generator and parser -/

theorem scansLast_of_commands {l m : List Line} (h : l.map Line.command = m.map Line.command) :
    ScansLast l ↔ ScansLast m := by
  have hmap : ∀ ls : List Line, ScansLast ls ↔
      (ls.map Line.command).Pairwise fun a b => a.operation? = none → b.operation? = none := by
    intro ls
    rw [List.pairwise_map]
    exact Iff.rfl
  rw [hmap, hmap, h]

theorem countLines_of_supported {ls : List Line} (h : ScansLast ls) (o : Operation) :
    countLines o (supported ls) = countLines o ls := by
  have hsplit : countLines o (supported ls) +
      countLines o (ls.dropWhile fun l => l.command.operation?.isSome) = countLines o ls := by
    rw [countLines, countLines, countLines, ← List.count_append, ← List.filterMap_append, supported,
      List.takeWhile_append_dropWhile]
  have hnone : (ls.dropWhile fun l => l.command.operation?.isSome).filterMap
      (fun l => l.command.operation?) = [] :=
    List.filterMap_eq_nil_iff.mpr ((scansLast_iff ls).mp h)
  rw [countLines, countLines, hnone] at hsplit
  exact hsplit

/-- Files of `INSERT` lines and of any lines are loaded as they stand if and only if the `SCAN`
lines come last. -/
theorem load_agrees_iff (rand : Nat → Value) {fill mixed : List Line}
    (hinserts : ∀ l ∈ fill, l.command.isInsert = true)
    (hfill : ∀ l ∈ fill, l.key.value < 2 ^ 64) (hmixed : ∀ l ∈ mixed, l.key.value < 2 ^ 64) :
    Agrees (Workload.create.load rand (render fill) (render mixed)) fill mixed ↔
      ScansLast mixed := by
  have hload := load_render rand fill mixed hfill hmixed
  have hall : supported fill = fill := by
    refine supported_eq_self fun l hl => ?_
    rw [Command.eq_insert (hinserts l hl)]
    rfl
  rw [hall] at hload
  constructor
  · intro h
    rw [← filterMap_supported_iff, ← hload.mixedTuples]
    exact h.mixedTuples
  · intro h
    refine ⟨hload.fillTuples, ?_, hload.fillInserts, ?_, ?_, ?_⟩
    · rw [hload.mixedTuples]
      exact (filterMap_supported_iff mixed).mpr h
    · rw [hload.inserts, countLines_of_supported h]
    · rw [hload.lookups, countLines_of_supported h]
    · rw [hload.updates, countLines_of_supported h]

/-- The lines of the two files. -/
theorem generateYcsb_lines (keyType : KeyType) {ycsbLoad ycsbTxn : List File}
    {loadCalls txnCalls : List Line} (hload : Trace ycsbLoad loadCalls)
    (htxn : Trace ycsbTxn txnCalls)
    (hknown : keyType = .monoint → Known [] (insertCalls loadCalls ++ txnCalls)) :
    ∃ fill mixed : List Line, generateYcsb keyType ycsbLoad ycsbTxn =
        some (fill.map Line.text, mixed.map Line.text) ∧
      fill.map Line.command = (insertCalls loadCalls).map Line.command ∧
      mixed.map Line.command = txnCalls.map Line.command := by
  rw [generateYcsb, rewriteLines_load hload, rewriteLines_txn htxn]
  cases keyType with
  | randint => exact ⟨_, _, rfl, rfl, rfl⟩
  | monoint =>
      have hstart : Numbering.start.Has [] := by simp [Numbering.Has]
      rcases Numbering.lines_of_known hstart (hknown rfl) with ⟨fill, seen, hfill, hcommands, hs, hrest⟩
      rw [← List.append_nil txnCalls] at hrest
      rcases Numbering.lines_of_known hs hrest with ⟨mixed, _, hmixed, hcommands', _, _⟩
      have hinserts : ∀ s, ∀ l ∈ insertCalls loadCalls,
          fillLine s l.text = (s.line l).map fun r => (r.1.text, r.2) :=
        fun s l hl => fillLine_text s (List.mem_filter.mp hl).2
      have h1 := numberLines_text (insertCalls loadCalls) hinserts .start
      have h2 := numberLines_text txnCalls (fun s l _ => mixedLine_text s l) fill.2
      refine ⟨fill.1, mixed.1, ?_, hcommands, hcommands'⟩
      simp only [Option.bind_some, h1, hfill, Option.map_some, h2, hmixed]

/-- For every output of YCSB the script writes the two files, and the parser agrees with them if and
only if no `INSERT`, `READ` or `UPDATE` call comes behind a `SCAN` call. -/
theorem generateYcsb_agrees_iff (rand : Nat → Value) (keyType : KeyType)
    (ycsbLoad ycsbTxn : List File) (loadCalls txnCalls : List Line)
    (hload : Trace ycsbLoad loadCalls) (htxn : Trace ycsbTxn txnCalls)
    (hknown : keyType = .monoint → Known [] (insertCalls loadCalls ++ txnCalls)) :
    ∃ fill mixed : List Line, generateYcsb keyType ycsbLoad ycsbTxn =
        some (fill.map Line.text, mixed.map Line.text) ∧
      fill.map Line.command = (insertCalls loadCalls).map Line.command ∧
      mixed.map Line.command = txnCalls.map Line.command ∧
      ((∀ l ∈ fill ++ mixed, l.key.value < 2 ^ 64) →
        (Agrees (Workload.create.load rand (fill.map Line.text).flatten (mixed.map Line.text).flatten)
          fill mixed ↔ ScansLast txnCalls)) := by
  rcases generateYcsb_lines keyType hload htxn hknown with ⟨fill, mixed, hlines, hfill, hmixed⟩
  refine ⟨fill, mixed, hlines, hfill, hmixed, fun hkeys => ?_⟩
  have hinserts : ∀ l ∈ fill, l.command.isInsert = true := by
    intro l hl
    have hmem : l.command ∈ (insertCalls loadCalls).map Line.command := by
      rw [← hfill]
      exact List.mem_map_of_mem hl
    rcases List.mem_map.mp hmem with ⟨l', hl', hcommand⟩
    rw [← hcommand]
    exact (List.mem_filter.mp hl').2
  rw [← List.flatMap_def, ← List.flatMap_def, ← scansLast_of_commands hmixed]
  exact load_agrees_iff rand hinserts (fun l hl => hkeys l (List.mem_append_left _ hl))
    fun l hl => hkeys l (List.mem_append_right _ hl)

/-- YCSB has inserted key 5. -/
def insertFive : List File := ["INSERT usertable user5 [ ]\n".toList]

/-- It reads the key and then scans. -/
def readThenScan : List File :=
  ["[OVERALL], RunTime(ms), 1\n".toList, "READ usertable user5 [ <all fields>]\n".toList,
    "SCAN usertable user5 10 [ <all fields>]\n".toList]

def scanThenRead : List File :=
  ["SCAN usertable user5 10 [ <all fields>]\n".toList, "READ usertable user5 [ <all fields>]\n".toList]

theorem trace_insertFive : Trace insertFive [⟨.insert, .ofNat 5⟩] :=
  .call ⟨"usertable".toList, "user".toList, ["[".toList, "]".toList], by decide, by decide⟩ .nil

theorem shows_readFive :
    Shows "READ usertable user5 [ <all fields>]\n".toList ⟨.read, .ofNat 5⟩ :=
  ⟨"usertable".toList, "user".toList, ["[".toList, "<all".toList, "fields>]".toList], by decide,
    by decide⟩

theorem shows_scanFive :
    Shows "SCAN usertable user5 10 [ <all fields>]\n".toList ⟨.scan (.ofNat 10), .ofNat 5⟩ :=
  ⟨"usertable".toList, "user".toList, ["[".toList, "<all".toList, "fields>]".toList], by decide,
    by decide⟩

/-- A line whose first column is no operation. -/
theorem other_overall : Other "[OVERALL], RunTime(ms), 1\n".toList := by
  refine ⟨"[OVERALL],".toList, ["RunTime(ms),".toList, "1".toList], by decide, fun command => ?_⟩
  cases command with
  | scan numkeys => exact (by decide : "[OVERALL],".toList ≠ "SCAN".toList)
  | insert => decide
  | read => decide
  | update => decide

theorem generateYcsb_agrees_iff_read_then_scan :
    ∃ fill mixed : List Line, generateYcsb .monoint insertFive readThenScan =
        some (fill.map Line.text, mixed.map Line.text) ∧
      ((∀ l ∈ fill ++ mixed, l.key.value < 2 ^ 64) →
        Agrees (Workload.create.load (fun _ => 0) (fill.map Line.text).flatten
          (mixed.map Line.text).flatten) fill mixed) := by
  have htxn : Trace readThenScan [⟨.read, .ofNat 5⟩, ⟨.scan (.ofNat 10), .ofNat 5⟩] :=
    .other other_overall (.call shows_readFive (.call shows_scanFive .nil))
  have hknown : Known [] (insertCalls [⟨.insert, .ofNat 5⟩] ++
      [⟨.read, .ofNat 5⟩, ⟨.scan (.ofNat 10), .ofNat 5⟩]) := by
    simp [Known, insertCalls, Command.isInsert]
  rcases generateYcsb_agrees_iff (fun _ => 0) .monoint insertFive readThenScan _ _ trace_insertFive htxn
    (fun _ => hknown) with ⟨fill, mixed, hlines, _, _, hiff⟩
  refine ⟨fill, mixed, hlines, fun hkeys => (hiff hkeys).mpr ?_⟩
  simp [ScansLast, Command.operation?]

/-- The `READ` line behind a `SCAN` line is not loaded. -/
theorem read_lost_behind_scan :
    Trace insertFive [⟨.insert, .ofNat 5⟩] ∧
    Trace scanThenRead [⟨.scan (.ofNat 10), .ofNat 5⟩, ⟨.read, .ofNat 5⟩] ∧
    generateYcsb .randint insertFive scanThenRead = some
      ([⟨.insert, .ofNat 5⟩].map Line.text,
        [⟨.scan (.ofNat 10), .ofNat 5⟩, ⟨.read, .ofNat 5⟩].map Line.text) ∧
    ¬ Agrees (Workload.create.load (fun _ => 0) ([⟨.insert, .ofNat 5⟩].map Line.text).flatten
      ([⟨.scan (.ofNat 10), .ofNat 5⟩, ⟨.read, .ofNat 5⟩].map Line.text).flatten)
      [⟨.insert, .ofNat 5⟩] [⟨.scan (.ofNat 10), .ofNat 5⟩, ⟨.read, .ofNat 5⟩] := by
  refine ⟨trace_insertFive, .call shows_scanFive (.call shows_readFive .nil), by decide, fun h => ?_⟩
  have hloaded : (Workload.create.load (fun _ => 0) ([⟨.insert, .ofNat 5⟩].map Line.text).flatten
      ([⟨.scan (.ofNat 10), .ofNat 5⟩, ⟨.read, .ofNat 5⟩].map Line.text).flatten).workloadPhaseTuples =
      [] := by decide
  have hmixed := h.mixedTuples
  rw [hloaded] at hmixed
  exact absurd hmixed (by decide)

end BLinkTree.Benchmark
