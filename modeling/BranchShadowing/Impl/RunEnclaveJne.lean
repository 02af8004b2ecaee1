import Mathlib.Algebra.Field.Defs
import Mathlib.Data.Int.Cast.Defs

/-!
# The statistics of the experiment

`run_once`, `collect_results` and `get_diff_stddev` of `run_enclave_jne.pl`, over any
field with a square root, and the loop of `run_test_with_shadow_input`. Of the log
`run_once` sees the lines that match its pattern; running the program, which prints the
address, and printing the results are left out. A function that the script dies in comes
twice: as it goes on if it does not die, and with an end in `none` (`runOnce?`).
-/

namespace BS.RunEnclaveJne

/-- A line of the log: the address of a branch, its cycles, and whether it says MISS. -/
structure LogLine where
  addr : String
  cycles : Nat
  miss : Bool
  deriving DecidableEq, Repr

structure Result where
  input : Int
  hit : Bool
  notFound : Bool
  cycles : Int
  fcycles : Int
  deriving DecidableEq, Repr

/-- The variables of the loop of `run_once`. -/
structure Scan where
  hit : Bool := false
  isFollowing : Bool := false
  time : Int := -1
  followingCycles : Int := -1
  notFound : Bool := true

def Scan.line (addr : String) (s : Scan) (l : LogLine) : Scan :=
  if addr = l.addr then
    { s with time := l.cycles, hit := !l.miss, notFound := false, isFollowing := true }
  else if s.isFollowing then { s with isFollowing := false, followingCycles := l.cycles }
  else s

/-- `run_once`, behind its check of the address. -/
def runOnce (addr : String) (victimInput : Int) (log : List LogLine) : Result :=
  let s := log.foldl (Scan.line addr) {}
  { input := victimInput
    hit := s.hit
    notFound := s.notFound
    cycles := s.time
    fcycles := s.followingCycles }

/-- What stands before `$`, which is also the place before a newline at the end. -/
def beforeEnd (addr : String) : List Char :=
  if addr.toList.getLast? = some '\n' then addr.toList.dropLast else addr.toList

/-- `m/^[0123456789abcdef]{8,16}$/` -/
def goodAddress (addr : String) : Bool :=
  8 ≤ (beforeEnd addr).length && (beforeEnd addr).length ≤ 16 &&
    (beforeEnd addr).all fun c => c ∈ "0123456789abcdef".toList

/-- `run_once`; `none` where it dies. -/
def runOnce? (addr : String) (victimInput : Int) (log : List LogLine) : Option Result :=
  if goodAddress addr then some (runOnce addr victimInput log) else none

/-- The sums of the first loop of `collect_results`. -/
structure Sums where
  hits : Int := 0
  notFound : Nat := 0
  cycles : Int := 0
  fcycles : Int := 0
  count : Nat := 0
  fcount : Nat := 0

def Sums.add (i : Int) (s : Sums) (r : Result) : Sums :=
  if r.input = i then
    if r.notFound then { s with notFound := s.notFound + 1 }
    else
      let s := { s with hits := s.hits + r.hit.toInt, cycles := s.cycles + r.cycles }
      let s :=
        if 0 ≤ r.fcycles then { s with fcycles := s.fcycles + r.fcycles, fcount := s.fcount + 1 }
        else s
      { s with count := s.count + 1 }
  else s

structure Output (K : Type*) where
  testNum : Int
  vInput : Int
  notFound : Nat
  hits : Int
  count : Nat
  hAvg : K
  hStd : K
  cAvg : K
  cStd : K
  fAvg : K
  fStd : K

variable {K : Type*} [Field K]

/-- The sums of the second loop. -/
structure Deviations (K : Type*) where
  c : K
  f : K
  h : K

def Deviations.add (i : Int) (avgHits avgCycles avgFcycles : K) (d : Deviations K) (r : Result) :
    Deviations K :=
  if r.input = i then
    { c := d.c + ((r.cycles : K) - avgCycles) ^ 2
      f := d.f + ((r.fcycles : K) - avgFcycles) ^ 2
      h := d.h + ((r.hit.toInt : K) - avgHits) ^ 2 }
  else d

def average (sum : Int) (count : Nat) : K := if count ≠ 0 then (sum : K) / count else 0

/-- One round of the loop of `collect_results`. -/
def collectInput (sqrt : K → K) (testNum : Int) (res : List Result) (i : Int) : Output K :=
  let s := res.foldl (Sums.add i) {}
  let avgHits : K := average s.hits s.count
  let avgCycles : K := average s.cycles s.count
  let avgFcycles : K := average s.fcycles s.fcount
  let d := res.foldl (Deviations.add i avgHits avgCycles avgFcycles) ⟨0, 0, 0⟩
  { testNum := testNum
    vInput := i
    notFound := s.notFound
    hits := s.hits
    count := s.count
    hAvg := avgHits
    hStd := sqrt (if 2 < s.count then d.h / s.count else 0)
    cAvg := avgCycles
    cStd := sqrt (if 2 < s.count then d.c / s.count else 0)
    fAvg := avgFcycles
    fStd := sqrt (if 2 < s.fcount then d.f / s.fcount else 0) }

def collectResults (sqrt : K → K) (testNum : Int) (res : List Result) (i : Fin 2) : Output K :=
  collectInput sqrt testNum res i

/-- `get_diff_stddev` of the field `type`. -/
def getDiffStddev (sqrt : K → K) (r : Fin 2 → Output K) (type : Output K → K) : K :=
  if (r 0).count = 0 ∨ (r 1).count = 0 then 999999
  else sqrt (type (r 0) / (r 0).count + type (r 1) / (r 1).count)

/-! ## The order of the runs -/

/-- The input of a run, and the counters after it. -/
def chooseInput (rand : Bool) (ones zeros : Int) : Int × Int × Int :=
  if rand then (if 0 < ones then 1 else 0, ones - 1, zeros)
  else (if 0 < zeros then 0 else 1, ones, zeros - 1)

/-- The loop of `run_test_with_shadow_input` if no run dies, where `int(rand(2))` is `rand i`
in round `i`, and `run_once` sees the address and the log of `runs i`. -/
def testLoop (rand : Nat → Bool) (runs : Nat → String × List LogLine) (count : Int) (i : Nat)
    (ones zeros : Int) : List Result :=
  if (i : Int) < 2 * count then
    let (input, ones, zeros) := chooseInput (rand i) ones zeros
    runOnce (runs i).1 input (runs i).2 :: testLoop rand runs count (i + 1) ones zeros
  else []
termination_by (2 * count - i).toNat

/-- The results that `run_test_with_shadow_input` prints. -/
def runTestWithShadowInput (rand : Nat → Bool) (runs : Nat → String × List LogLine) (count : Int) :
    List Result :=
  testLoop rand runs count 0 count count

/-- The loop; `none` where a run dies. -/
def testLoop? (rand : Nat → Bool) (runs : Nat → String × List LogLine) (count : Int) (i : Nat)
    (ones zeros : Int) : Option (List Result) :=
  if (i : Int) < 2 * count then
    let (input, ones, zeros) := chooseInput (rand i) ones zeros
    match runOnce? (runs i).1 input (runs i).2 with
    | some r => (testLoop? rand runs count (i + 1) ones zeros).map (r :: ·)
    | none => none
  else some []
termination_by (2 * count - i).toNat

/-- `run_test_with_shadow_input`, which prints nothing if it dies. -/
def runTestWithShadowInput? (rand : Nat → Bool) (runs : Nat → String × List LogLine)
    (count : Int) : Option (List Result) :=
  testLoop? rand runs count 0 count count

end BS.RunEnclaveJne
