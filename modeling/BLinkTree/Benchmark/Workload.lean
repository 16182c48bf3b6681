import BLinkTree.Lib.Text
import BLinkTree.Calls
import Mathlib.Data.List.TakeWhile

/-! # Workloads

`workload.h`, `workload.cpp` and `workload_tuple.h`. A file is its text. The values of the tuples come
from `std::rand` behind `std::srand(1337)`: `rand n` is the value of the call number `n`.
-/

namespace BLinkTree.Benchmark

open Text

abbrev File := List Char

/-- `std::isspace` in the classic locale. -/
def isSpace (c : Char) : Bool := c ∈ [' ', '\t', '\n', '\x0b', '\x0c', '\r']

inductive Operation where
  | insert
  | lookup
  | update
  deriving DecidableEq

structure WorkloadTuple where
  operation : Operation
  key : Nat
  value : Value
  deriving DecidableEq

inductive Phase where
  | fill
  | benchmark
  deriving DecidableEq

structure Workload where
  phase : Phase
  fillInserts : Nat
  inserts : Nat
  lookups : Nat
  updates : Nat
  fillPhaseTuples : List WorkloadTuple
  workloadPhaseTuples : List WorkloadTuple

namespace Workload

def create : Workload := ⟨.fill, 0, 0, 0, 0, [], []⟩

def countBenchmarkWorkload (w : Workload) : Nat := w.lookups + w.inserts + w.updates

def countCurrentPhase (w : Workload) : Nat :=
  match w.phase with
  | .fill => w.fillInserts
  | .benchmark => w.countBenchmarkWorkload

def currentWorkload (w : Workload) : List WorkloadTuple :=
  match w.phase with
  | .fill => w.fillPhaseTuples
  | .benchmark => w.workloadPhaseTuples

end Workload

/-- What `parse_file` writes through its references, and the calls of `std::rand`. -/
structure Parsed where
  tuples : List WorkloadTuple
  insertCounter : Nat
  lookupCounter : Nat
  updateCounter : Nat
  rands : Nat

/-- The body of the loop. -/
def Parsed.push (rand : Nat → Value) (p : Parsed) (operationName : List Char) (key : Nat) : Parsed :=
  if operationName = "INSERT".toList then
    { p with
      tuples := p.tuples ++ [⟨.insert, key, rand p.rands⟩]
      insertCounter := p.insertCounter + 1
      rands := p.rands + 1 }
  else if operationName = "READ".toList then
    { p with
      tuples := p.tuples ++ [⟨.lookup, key, 0⟩]
      lookupCounter := p.lookupCounter + 1 }
  else if operationName = "UPDATE".toList then
    { p with
      tuples := p.tuples ++ [⟨.update, key, rand p.rands⟩]
      updateCounter := p.updateCounter + 1
      rands := p.rands + 1 }
  else p

/-- `while (in_stream >> operation_name >> key)`. -/
def parseLoop (rand : Nat → Value) : Nat → File → Parsed → Parsed
  | 0, _, p => p
  | fuel + 1, s, p =>
      match readWord isSpace s with
      | none => p
      | some (operationName, s) =>
          match readUnsigned isSpace (2 ^ 64) s with
          | none => p
          | some (key, s) => parseLoop rand fuel s (p.push rand operationName key)

/-- The counters count the tuples. -/
def Parsed.Counted (p : Parsed) : Prop :=
  p.tuples.length = p.insertCounter + p.lookupCounter + p.updateCounter

theorem Parsed.Counted.push {p : Parsed} (h : p.Counted) (rand : Nat → Value) (name : List Char)
    (key : Nat) : (p.push rand name key).Counted := by
  unfold Parsed.Counted at h
  unfold Parsed.push
  split
  · show (p.tuples ++ [_]).length = p.insertCounter + 1 + p.lookupCounter + p.updateCounter
    rw [List.length_append, List.length_singleton]
    omega
  · split
    · show (p.tuples ++ [_]).length = p.insertCounter + (p.lookupCounter + 1) + p.updateCounter
      rw [List.length_append, List.length_singleton]
      omega
    · split
      · show (p.tuples ++ [_]).length = p.insertCounter + p.lookupCounter + (p.updateCounter + 1)
        rw [List.length_append, List.length_singleton]
        omega
      · exact h

theorem Parsed.Counted.parseLoop {p : Parsed} (h : p.Counted) (rand : Nat → Value) (fuel : Nat)
    (s : File) : (parseLoop rand fuel s p).Counted := by
  induction fuel generalizing s p with
  | zero => exact h
  | succ fuel ih =>
      unfold Benchmark.parseLoop
      split
      · exact h
      · split
        · exact h
        · exact ih (h.push rand _ _) _

def parseFile (rand : Nat → Value) (s : File) (tuples : List WorkloadTuple)
    (insertCounter lookupCounter updateCounter : Nat) : Parsed :=
  parseLoop rand (s.length + 1) s ⟨tuples, insertCounter, lookupCounter, updateCounter, 0⟩

def Workload.load (rand : Nat → Value) (w : Workload) (fillFile workloadFile : File) : Workload :=
  let fill := parseFile rand fillFile w.fillPhaseTuples w.fillInserts 0 0
  let mixed := parseFile rand workloadFile w.workloadPhaseTuples w.inserts w.lookups w.updates
  { w with
    fillInserts := fill.insertCounter
    fillPhaseTuples := fill.tuples
    inserts := mixed.insertCounter
    lookups := mixed.lookupCounter
    updates := mixed.updateCounter
    workloadPhaseTuples := mixed.tuples }

/-- An iteration takes a character at least, so no file has more of them. -/
theorem parseLoop_fuel (rand : Nat → Value) {fuel fuel' : Nat} {s : File} (p : Parsed)
    (h : s.length < fuel) (h' : s.length < fuel') :
    parseLoop rand fuel s p = parseLoop rand fuel' s p := by
  induction fuel generalizing s p fuel' with
  | zero => exact absurd h (Nat.not_lt_zero _)
  | succ fuel ih =>
      obtain ⟨fuel', rfl⟩ : ∃ f, fuel' = f + 1 := ⟨fuel' - 1, by omega⟩
      simp only [parseLoop]
      cases hw : readWord isSpace s with
      | none => rfl
      | some r =>
          rcases r with ⟨operationName, t⟩
          have hlt := readWord_length hw
          cases hk : readUnsigned isSpace (2 ^ 64) t with
          | none => simp only [hk]
          | some q =>
              rcases q with ⟨key, t'⟩
              have hle := readUnsigned_length hk
              simp only [hk]
              exact ih _ (by omega) (by omega)

/-! ## The lines of a file -/

/-- The first word of a line; a `SCAN` line has a number of keys behind its key. -/
inductive Command where
  | insert
  | read
  | update
  | scan (numkeys : Numeral)

def Command.name : Command → List Char
  | insert => "INSERT".toList
  | read => "READ".toList
  | update => "UPDATE".toList
  | scan _ => "SCAN".toList

/-- The columns behind the key. -/
def Command.columns : Command → List (List Char)
  | scan numkeys => [numkeys.digits]
  | _ => []

/-- The operation of the tuple that a line stands for. -/
def Command.operation? : Command → Option Operation
  | insert => some .insert
  | read => some .lookup
  | update => some .update
  | scan _ => none

def Command.isInsert : Command → Bool
  | insert => true
  | _ => false

theorem Command.eq_insert {c : Command} (h : c.isInsert = true) : c = .insert := by
  cases c with
  | insert => rfl
  | _ => exact absurd h (by simp [isInsert])

structure Line where
  command : Command
  key : Numeral

def Line.text (l : Line) : File :=
  l.command.name ++ ' ' :: (l.key.digits ++ l.command.columns.flatMap (fun c => ' ' :: c) ++ ['\n'])

/-- Operation and key of the tuple. -/
def Line.tuple? (l : Line) : Option (Operation × Nat) :=
  l.command.operation?.map fun o => (o, l.key.value)

def render (lines : List Line) : File := lines.flatMap Line.text

/-- The effect of a line on the tuples and counters. -/
def Parsed.line (rand : Nat → Value) (p : Parsed) (l : Line) : Parsed :=
  p.push rand l.command.name l.key.value

theorem isSpace_digit {c : Char} (hc : c.isDigit = true) : isSpace c = false := by
  rw [isSpace, decide_eq_false_iff_not]
  intro hmem
  simp only [List.mem_cons, List.not_mem_nil, or_false] at hmem
  rcases hmem with rfl | rfl | rfl | rfl | rfl | rfl <;> exact absurd hc (by decide)

theorem isWord_scan : IsWord isSpace "SCAN".toList := .of_all (by decide) (by decide)

theorem Command.isWord_name (c : Command) : IsWord isSpace c.name := by
  cases c with
  | scan numkeys => exact isWord_scan
  | _ => exact .of_all (by decide) (by decide)

/-- A name is no number. -/
theorem readUnsigned_name (c : Command) (t : File) (bound : Nat) :
    readUnsigned isSpace bound (c.name ++ t) = none := by
  cases c <;> exact readUnsigned_letter (by decide) (by decide) rfl

theorem parseLoop_space (rand : Nat → Value) (fuel : Nat) {c : Char} (s : File) (p : Parsed)
    (hc : isSpace c = true) : parseLoop rand fuel (c :: s) p = parseLoop rand fuel s p := by
  cases fuel with
  | zero => rfl
  | succ fuel => rw [parseLoop, parseLoop, readWord_space hc]

theorem text_plain {l : Line} (h : l.command.columns = []) :
    l.text = l.command.name ++ ' ' :: (l.key.digits ++ ['\n']) := by simp [Line.text, h]

theorem text_scan (numkeys key : Numeral) : Line.text ⟨.scan numkeys, key⟩ =
    "SCAN".toList ++ ' ' :: (key.digits ++ ' ' :: (numkeys.digits ++ ['\n'])) := by
  show "SCAN".toList ++ ' ' :: (key.digits ++
    [numkeys.digits].flatMap (fun c => ' ' :: c) ++ ['\n']) = _
  rw [List.flatMap_singleton, List.append_assoc]
  rfl

/-- One iteration reads a line without columns behind its key. -/
theorem parseLoop_line (rand : Nat → Value) (fuel : Nat) {l : Line} (s : File) (p : Parsed)
    (hl : l.command.columns = []) (hkey : l.key.value < 2 ^ 64) :
    parseLoop rand (fuel + 1) (l.text ++ s) p = parseLoop rand fuel s (p.line rand l) := by
  have htext : l.text ++ s = l.command.name ++ ' ' :: (l.key.digits ++ '\n' :: s) := by
    simp [text_plain hl]
  have hread : readUnsigned isSpace (2 ^ 64) (l.key.digits ++ '\n' :: s) =
      some (l.key.value, '\n' :: s) :=
    readUnsigned_append l.key (fun _ hc => isSpace_digit hc) hkey (by decide)
  rw [htext, parseLoop, readWord_append l.command.isWord_name (by decide)]
  simp only [readUnsigned_space (show isSpace ' ' = true by decide), hread]
  rw [parseLoop_space rand fuel s _ (by decide)]
  rfl

/-- Behind a `SCAN` line the number of keys is taken for an operation, and the loop ends. -/
theorem parseLoop_scan (rand : Nat → Value) (fuel : Nat) (numkeys key : Numeral)
    (lines : List Line) (p : Parsed) (hkey : key.value < 2 ^ 64) :
    parseLoop rand (fuel + 2) (Line.text ⟨.scan numkeys, key⟩ ++ render lines) p = p := by
  have htext : Line.text ⟨.scan numkeys, key⟩ ++ render lines =
      "SCAN".toList ++ ' ' :: (key.digits ++ ' ' :: (numkeys.digits ++ '\n' :: render lines)) := by
    simp only [text_scan, List.append_assoc, List.cons_append, List.nil_append]
  have hread : readUnsigned isSpace (2 ^ 64)
      (key.digits ++ ' ' :: (numkeys.digits ++ '\n' :: render lines)) =
      some (key.value, ' ' :: (numkeys.digits ++ '\n' :: render lines)) :=
    readUnsigned_append key (fun _ hc => isSpace_digit hc) hkey (by decide)
  have hnone : readUnsigned isSpace (2 ^ 64) (render lines) = none := by
    cases lines with
    | nil => exact readUnsigned_nil
    | cons l lines =>
        have hfirst : render (l :: lines) = l.command.name ++
            ' ' :: (l.key.digits ++ l.command.columns.flatMap (fun c => ' ' :: c) ++ ['\n']) ++
              render lines := rfl
        rw [hfirst, List.append_assoc]
        exact readUnsigned_name _ _ _
  rw [htext, parseLoop, readWord_append isWord_scan (by decide)]
  simp only [readUnsigned_space (show isSpace ' ' = true by decide), hread]
  rw [parseLoop_space rand _ _ _ (by decide), parseLoop,
    readWord_append (numkeys.isWord fun c hc => isSpace_digit hc) (by decide)]
  simp only [readUnsigned_space (show isSpace '\n' = true by decide), hnone]
  rfl

/-- The lines in front of the first `SCAN` line. -/
def supported (lines : List Line) : List Line := lines.takeWhile fun l => l.command.operation?.isSome

theorem Command.columns_of_operation {c : Command} (h : c.operation?.isSome = true) :
    c.columns = [] := by
  cases c with
  | scan numkeys => exact absurd h (by simp [operation?])
  | _ => rfl

theorem parseLoop_render (rand : Nat → Value) {fuel : Nat} (lines : List Line) (p : Parsed)
    (hkeys : ∀ l ∈ lines, l.key.value < 2 ^ 64) (hfuel : 2 * lines.length < fuel) :
    parseLoop rand fuel (render lines) p = (supported lines).foldl (Parsed.line rand) p := by
  induction lines generalizing fuel p with
  | nil =>
      obtain ⟨fuel, rfl⟩ : ∃ f, fuel = f + 1 := ⟨fuel - 1, by omega⟩
      rfl
  | cons l lines ih =>
      rw [List.length_cons] at hfuel
      obtain ⟨fuel, rfl⟩ : ∃ f, fuel = f + 2 := ⟨fuel - 2, by omega⟩
      have hkey := hkeys l (List.mem_cons_self ..)
      have htext : render (l :: lines) = l.text ++ render lines := rfl
      by_cases hl : l.command.operation?.isSome = true
      · have hcut : supported (l :: lines) = l :: supported lines := List.takeWhile_cons_of_pos hl
        rw [htext, parseLoop_line rand (fuel + 1) _ p (Command.columns_of_operation hl) hkey,
          ih _ (fun l' hl' => hkeys l' (List.mem_cons_of_mem _ hl')) (by omega), hcut,
          List.foldl_cons]
      · have hcut : supported (l :: lines) = [] := List.takeWhile_cons_of_neg hl
        rw [htext, hcut]
        rcases l with ⟨c, key⟩
        cases c with
        | scan numkeys => exact parseLoop_scan rand fuel numkeys key lines p hkey
        | _ => exact absurd rfl hl

theorem two_mul_length_le_render (lines : List Line) : 2 * lines.length ≤ (render lines).length := by
  induction lines with
  | nil => simp
  | cons l lines ih =>
      have htext : (render (l :: lines)).length = l.text.length + (render lines).length := by
        rw [← List.length_append]
        rfl
      have hline : 2 ≤ l.text.length := by
        simp only [Line.text, List.length_append, List.length_cons]
        omega
      rw [htext, List.length_cons]
      omega

theorem parseFile_render (rand : Nat → Value) (lines : List Line) (tuples : List WorkloadTuple)
    (a b c : Nat) (hkeys : ∀ l ∈ lines, l.key.value < 2 ^ 64) :
    parseFile rand (render lines) tuples a b c =
      (supported lines).foldl (Parsed.line rand) ⟨tuples, a, b, c, 0⟩ :=
  parseLoop_render rand lines _ hkeys (Nat.lt_succ_of_le (two_mul_length_le_render lines))

/-! ## What is loaded -/

/-- Operation and key of a tuple. -/
def WorkloadTuple.call (t : WorkloadTuple) : Operation × Nat := (t.operation, t.key)

/-- The number of lines with an operation. -/
def countLines (o : Operation) (lines : List Line) : Nat :=
  (lines.filterMap fun l => l.command.operation?).count o

/-- The tuples and counters behind some lines. -/
structure Parsed.Adds (p : Parsed) (lines : List Line) (q : Parsed) : Prop where
  tuples : q.tuples.map WorkloadTuple.call =
    p.tuples.map WorkloadTuple.call ++ lines.filterMap Line.tuple?
  insertCounter : q.insertCounter = p.insertCounter + countLines .insert lines
  lookupCounter : q.lookupCounter = p.lookupCounter + countLines .lookup lines
  updateCounter : q.updateCounter = p.updateCounter + countLines .update lines

section Push

variable (rand : Nat → Value) (p : Parsed) (key : Nat)

theorem Parsed.push_insert : p.push rand "INSERT".toList key =
    { p with
      tuples := p.tuples ++ [⟨.insert, key, rand p.rands⟩]
      insertCounter := p.insertCounter + 1
      rands := p.rands + 1 } := if_pos rfl

theorem Parsed.push_read : p.push rand "READ".toList key =
    { p with
      tuples := p.tuples ++ [⟨.lookup, key, 0⟩]
      lookupCounter := p.lookupCounter + 1 } := by
  unfold Parsed.push
  rw [if_neg (by decide), if_pos rfl]

theorem Parsed.push_update : p.push rand "UPDATE".toList key =
    { p with
      tuples := p.tuples ++ [⟨.update, key, rand p.rands⟩]
      updateCounter := p.updateCounter + 1
      rands := p.rands + 1 } := by
  unfold Parsed.push
  rw [if_neg (by decide), if_neg (by decide), if_pos rfl]

theorem Parsed.push_scan : p.push rand "SCAN".toList key = p := by
  unfold Parsed.push
  rw [if_neg (by decide), if_neg (by decide), if_neg (by decide)]

end Push

theorem Parsed.adds_line (rand : Nat → Value) (p : Parsed) (l : Line) :
    p.Adds [l] (p.line rand l) := by
  rcases l with ⟨c, key⟩
  cases c with
  | insert =>
      rw [show p.line rand ⟨.insert, key⟩ = _ from p.push_insert rand key.value]
      constructor <;> simp [Line.tuple?, Command.operation?, countLines, WorkloadTuple.call]
  | read =>
      rw [show p.line rand ⟨.read, key⟩ = _ from p.push_read rand key.value]
      constructor <;> simp [Line.tuple?, Command.operation?, countLines, WorkloadTuple.call]
  | update =>
      rw [show p.line rand ⟨.update, key⟩ = _ from p.push_update rand key.value]
      constructor <;> simp [Line.tuple?, Command.operation?, countLines, WorkloadTuple.call]
  | scan numkeys =>
      rw [show p.line rand ⟨.scan numkeys, key⟩ = _ from p.push_scan rand key.value]
      constructor <;> simp [Line.tuple?, Command.operation?, countLines]

theorem Parsed.Adds.trans {p q r : Parsed} {l m : List Line} (h : p.Adds l q) (h' : q.Adds m r) :
    p.Adds (l ++ m) r where
  tuples := by rw [h'.tuples, h.tuples, List.filterMap_append, List.append_assoc]
  insertCounter := by
    rw [h'.insertCounter, h.insertCounter, countLines, countLines, countLines, List.filterMap_append,
      List.count_append, Nat.add_assoc]
  lookupCounter := by
    rw [h'.lookupCounter, h.lookupCounter, countLines, countLines, countLines, List.filterMap_append,
      List.count_append, Nat.add_assoc]
  updateCounter := by
    rw [h'.updateCounter, h.updateCounter, countLines, countLines, countLines, List.filterMap_append,
      List.count_append, Nat.add_assoc]

theorem Parsed.adds_foldl (rand : Nat → Value) (p : Parsed) (lines : List Line) :
    p.Adds lines (lines.foldl (Parsed.line rand) p) := by
  induction lines generalizing p with
  | nil => constructor <;> simp [countLines]
  | cons l lines ih => exact (p.adds_line rand l).trans (ih _)

/-- The workload holds the tuples of the lines with an operation, in order, and their numbers. -/
structure Agrees (w : Workload) (fill mixed : List Line) : Prop where
  fillTuples : w.fillPhaseTuples.map WorkloadTuple.call = fill.filterMap Line.tuple?
  mixedTuples : w.workloadPhaseTuples.map WorkloadTuple.call = mixed.filterMap Line.tuple?
  fillInserts : w.fillInserts = countLines .insert fill
  inserts : w.inserts = countLines .insert mixed
  lookups : w.lookups = countLines .lookup mixed
  updates : w.updates = countLines .update mixed

/-- Every file is loaded up to its first `SCAN` line. -/
theorem load_render (rand : Nat → Value) (fill mixed : List Line)
    (hfill : ∀ l ∈ fill, l.key.value < 2 ^ 64) (hmixed : ∀ l ∈ mixed, l.key.value < 2 ^ 64) :
    Agrees (Workload.create.load rand (render fill) (render mixed)) (supported fill)
      (supported mixed) := by
  have h := Parsed.adds_foldl rand ⟨[], 0, 0, 0, 0⟩ (supported fill)
  have h' := Parsed.adds_foldl rand ⟨[], 0, 0, 0, 0⟩ (supported mixed)
  rw [← parseFile_render rand fill [] 0 0 0 hfill] at h
  rw [← parseFile_render rand mixed [] 0 0 0 hmixed] at h'
  refine ⟨h.tuples, h'.tuples, ?_, ?_, ?_, ?_⟩
  · exact h.insertCounter.trans (Nat.zero_add _)
  · exact h'.insertCounter.trans (Nat.zero_add _)
  · exact h'.lookupCounter.trans (Nat.zero_add _)
  · exact h'.updateCounter.trans (Nat.zero_add _)

theorem supported_eq_self {lines : List Line}
    (h : ∀ l ∈ lines, l.command.operation?.isSome = true) : supported lines = lines := by
  unfold supported
  rw [List.takeWhile_eq_self_iff]
  exact h

/-- Behind a `SCAN` line there are `SCAN` lines only. -/
def ScansLast (lines : List Line) : Prop :=
  lines.Pairwise fun a b => a.command.operation? = none → b.command.operation? = none

theorem scansLast_iff (lines : List Line) :
    ScansLast lines ↔
      ∀ l ∈ lines.dropWhile (fun l => l.command.operation?.isSome), l.command.operation? = none := by
  induction lines with
  | nil => simp [ScansLast]
  | cons l lines ih =>
      by_cases hl : l.command.operation?.isSome = true
      · have hdrop : (l :: lines).dropWhile (fun l => l.command.operation?.isSome) =
            lines.dropWhile (fun l => l.command.operation?.isSome) := List.dropWhile_cons_of_pos hl
        rw [hdrop, ← ih, ScansLast, List.pairwise_cons]
        refine and_iff_right fun b _ hnone => ?_
        rw [hnone] at hl
        exact absurd hl (by simp)
      · have hdrop : (l :: lines).dropWhile (fun l => l.command.operation?.isSome) = l :: lines :=
          List.dropWhile_cons_of_neg hl
        have hnone : l.command.operation? = none := by simpa using hl
        rw [hdrop, ScansLast, List.pairwise_cons, List.forall_mem_cons]
        refine ⟨fun h => ⟨hnone, fun b hb => h.1 b hb hnone⟩, fun h => ⟨fun b hb _ => h.2 b hb, ?_⟩⟩
        exact List.pairwise_of_forall_mem_list fun a _ b hb _ => h.2 b hb

/-- No line is lost behind the first `SCAN` line. -/
theorem filterMap_supported_iff (lines : List Line) :
    (supported lines).filterMap Line.tuple? = lines.filterMap Line.tuple? ↔ ScansLast lines := by
  have hsplit : (supported lines).filterMap Line.tuple? ++
      (lines.dropWhile fun l => l.command.operation?.isSome).filterMap Line.tuple? =
      lines.filterMap Line.tuple? := by
    rw [← List.filterMap_append, supported, List.takeWhile_append_dropWhile]
  rw [← hsplit, List.self_eq_append_right, List.filterMap_eq_nil_iff, scansLast_iff]
  simp [Line.tuple?]

end BLinkTree.Benchmark
