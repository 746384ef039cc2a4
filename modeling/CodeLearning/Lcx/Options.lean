import CodeLearning.Lib.Decimal

/-!
# The command line of lcx

The loop of `main` over the arguments looks at the arguments behind an option to tell values from
options. `-listen` and `-slave` look at the next argument each time. `-tran` looks one, two and
three arguments ahead and moves on between, so that it looks past its values: at its third value
before it takes the second, and at the second argument behind its values before it takes the third.
Near the end of the vector this is behind the null pointer that ends it.
-/

namespace CodeLearning.Lcx

open ByteFile Decimal

/-- `HOSTLEN`. -/
def hostlen : Nat := 40

/-- An argument: bytes without a NUL. -/
structure Arg where
  /-- The bytes before the NUL. -/
  bytes : Bytes
  /-- The NUL ends the argument. -/
  noNul : 0 ∉ bytes

/-- Arguments with the same bytes are the same. -/
theorem Arg.bytes_eq_iff {left right : Arg} : left.bytes = right.bytes ↔ left = right := by
  cases left
  cases right
  simp

/-- Arguments are compared by their bytes. -/
instance : DecidableEq Arg := fun _ _ => decidable_of_iff _ Arg.bytes_eq_iff

/-- Values of `method`. -/
inductive Method where
  /-- `0`. -/
  | unset
  /-- `LISTEN`. -/
  | listen
  /-- `SLAVE`. -/
  | slave
  /-- `TRAN`. -/
  | tran
deriving DecidableEq

/-- The variables of `main` that the loop sets. -/
structure Settings where
  /-- `method`. -/
  method : Method
  /-- `host1`. -/
  host1 : Bytes
  /-- `host2`. -/
  host2 : Bytes
  /-- `port1`. -/
  port1 : Int
  /-- `port2`. -/
  port2 : Int
  /-- `logfile`. -/
  logfile : Option Arg
deriving DecidableEq

/-- The variables before the loop. -/
def initial : Settings where
  method := .unset
  host1 := List.replicate hostlen 0
  host2 := List.replicate hostlen 0
  port1 := 0
  port2 := 0
  logfile := none

/-- An element of the vector, which ends with a null pointer; `none` behind it. -/
def element (argv : List Arg) (i : Nat) : Option (Option Arg) :=
  if i ≤ argv.length then some argv[i]? else none

/-- `testifisvalue`. -/
def testifisvalue : Option Arg → Bool
  | none => false
  | some str => str.bytes.head? != some 45

/-- `if (testifisvalue(*(p + ahead)) == 1)` and what is made of `*(++p)` then, with `p` and the
variable that is set. -/
def takeValue {β : Type} (argv : List Arg) (ahead p : Nat) (old : β) (value : Arg → β) :
    Option (Nat × β) :=
  match element argv (p + ahead) with
  | none => none
  | some str =>
    if testifisvalue str then
      match element argv (p + 1) with
      | some (some arg) => some (p + 1, value arg)
      | _ => none
    else some (p, old)

/-- `port = atoi(*(++p));`. -/
def takePort (argv : List Arg) (ahead p : Nat) (port : Int) : Option (Nat × Int) :=
  takeValue argv ahead p port fun arg => atol arg.bytes

/-- `strncpy`. -/
def strncpy (dst src : Bytes) (n : Nat) : Bytes :=
  src.take n ++ List.replicate (n - src.length) 0 ++ dst.drop n

/-- The number of bytes of a host name that are copied. -/
def copied (arg : Arg) : Nat :=
  if arg.bytes.length > hostlen - 1 then hostlen - 1 else arg.bytes.length

/-- `strncpy(host, *(++p), length);`. -/
def takeHost (argv : List Arg) (ahead p : Nat) (host : Bytes) : Option (Nat × Bytes) :=
  takeValue argv ahead p host fun arg => strncpy host arg.bytes (copied arg)

/-- How the loop goes on from an argument. -/
inductive Progress where
  /-- With the next round. -/
  | again (p : Nat) (s : Settings)
  /-- It ends at the null pointer. -/
  | ends (s : Settings)
  /-- `main` prints the version and returns. -/
  | version
  /-- `main` exits because `-log` has no value. -/
  | noLogfile
  /-- It reads behind the null pointer. -/
  | beyond
deriving DecidableEq

/-- The branch of `-listen`. -/
def listenOption (argv : List Arg) (p : Nat) (s : Settings) : Option (Nat × Settings) := do
  let (p, port1) ← takePort argv 1 p s.port1
  let (p, port2) ← takePort argv 1 p s.port2
  return (p + 1, { s with method := .listen, port1 := port1, port2 := port2 })

/-- The branch of `-slave`. -/
def slaveOption (argv : List Arg) (p : Nat) (s : Settings) : Option (Nat × Settings) := do
  let (p, host1) ← takeHost argv 1 p s.host1
  let (p, port1) ← takePort argv 1 p s.port1
  let (p, host2) ← takeHost argv 1 p s.host2
  let (p, port2) ← takePort argv 1 p s.port2
  return (p + 1,
    { s with method := .slave, host1 := host1, port1 := port1, host2 := host2, port2 := port2 })

/-- The branch of `-tran`. -/
def tranOption (argv : List Arg) (p : Nat) (s : Settings) : Option (Nat × Settings) := do
  let (p, port1) ← takePort argv 1 p s.port1
  let (p, host2) ← takeHost argv 2 p s.host2
  let (p, port2) ← takePort argv 3 p s.port2
  return (p + 1, { s with method := .tran, port1 := port1, host2 := host2, port2 := port2 })

/-- What a branch makes of the loop. -/
def Progress.ofBranch : Option (Nat × Settings) → Progress
  | none => .beyond
  | some (p, s) => .again p s

/-- The names of the options. -/
inductive OptionName where
  /-- `-v`. -/
  | v
  /-- `-listen`. -/
  | listen
  /-- `-slave`. -/
  | slave
  /-- `-tran`. -/
  | tran
  /-- `-log`. -/
  | log
deriving DecidableEq

/-- The bytes of a name. -/
def OptionName.bytes : OptionName → Bytes
  | v => [45, 118]
  | listen => [45, 108, 105, 115, 116, 101, 110]
  | slave => [45, 115, 108, 97, 118, 101]
  | tran => [45, 116, 114, 97, 110]
  | log => [45, 108, 111, 103]

/-- The option that an argument names: the calls of `strcmp` in their order. -/
def optionName (arg : Arg) : Option OptionName :=
  [.v, .listen, .slave, .tran, .log].find? fun name => arg.bytes == name.bytes

/-- A round of the loop. -/
def optionStep (argv : List Arg) (p : Nat) (s : Settings) : Progress :=
  match element argv p with
  | none => .beyond
  | some none => .ends s
  | some (some arg) =>
    match optionName arg with
    | some .v => .version
    | some .listen => .ofBranch (listenOption argv p s)
    | some .slave => .ofBranch (slaveOption argv p s)
    | some .tran => .ofBranch (tranOption argv p s)
    | some .log =>
      match element argv (p + 1) with
      | none => .beyond
      | some str =>
        if testifisvalue str then .again (p + 2) { s with logfile := str } else .noLogfile
    | none => .again (p + 1) s

/-- The loop, for so many rounds. -/
def optionLoop (argv : List Arg) : Nat → Nat → Settings → Progress
  | 0, p, s => .again p s
  | rounds + 1, p, s =>
    match optionStep argv p s with
    | .again p s => optionLoop argv rounds p s
    | stop => stop

/-- How the loop over a vector ends; it has a round for each argument at the most. -/
def parse (argv : List Arg) : Progress := optionLoop argv (argv.length + 1) 0 initial

/-- The loop comes to stand at an argument with these variables. -/
inductive Reaches (argv : List Arg) : Nat → Settings → Prop where
  /-- At the start. -/
  | start : Reaches argv 0 initial
  /-- After a round. -/
  | round {p p' : Nat} {s s' : Settings} (before : Reaches argv p s)
      (goes : optionStep argv p s = .again p' s') : Reaches argv p' s'

/-! ## Rounds -/

section Rounds

variable {argv : List Arg} {p p' : Nat} {s s' : Settings}

/-- An argument that can be read is in the vector. -/
theorem element_some {arg : Arg} : element argv p = some (some arg) ↔ argv[p]? = some arg := by
  unfold element
  constructor
  · intro found
    split at found
    · exact Option.some.inj found
    · cases found
  · intro found
    have inside := (List.getElem?_eq_some_iff.mp found).1
    rw [if_pos (Nat.le_of_lt inside), found]

/-- A look behind the null pointer. -/
theorem takeValue_eq_none {β : Type} {ahead : Nat} {old : β} {value : Arg → β}
    (positive : 0 < ahead) :
    takeValue argv ahead p old value = none ↔ argv.length < p + ahead := by
  unfold takeValue element
  by_cases inside : p + ahead ≤ argv.length
  · rw [if_pos inside, if_pos (show p + 1 ≤ argv.length by omega)]
    have notBeyond : ¬ argv.length < p + ahead := by omega
    simp only [notBeyond, iff_false]
    cases next : argv[p + 1]? with
    | some arg => split <;> simp
    | none =>
      -- The next argument is the null pointer, so that the one looked at is it too.
      have last : argv.length ≤ p + 1 := List.getElem?_eq_none_iff.mp next
      have looked : argv[p + ahead]? = none := List.getElem?_eq_none_iff.mpr (by omega)
      rw [looked]
      simp [testifisvalue]
  · rw [if_neg inside]
    simp only [true_iff]
    omega

/-- A value is taken from the next argument, or `p` and the variable stay. -/
theorem takeValue_cases {β : Type} {ahead : Nat} {old new : β} {value : Arg → β}
    (taken : takeValue argv ahead p old value = some (p', new)) :
    (testifisvalue argv[p + ahead]? = false ∧ p' = p ∧ new = old) ∨
      (testifisvalue argv[p + ahead]? = true ∧ p' = p + 1 ∧
        ∃ arg, argv[p + 1]? = some arg ∧ new = value arg) := by
  unfold takeValue element at taken
  by_cases inside : p + ahead ≤ argv.length
  · rw [if_pos inside] at taken
    cases isValue : testifisvalue argv[p + ahead]? with
    | false =>
      simp only [isValue, Bool.false_eq_true, if_false] at taken
      cases taken
      exact .inl ⟨rfl, rfl, rfl⟩
    | true =>
      simp only [isValue, if_true] at taken
      split at taken
      · rename_i arg found
        cases taken
        exact .inr ⟨rfl, rfl, arg, element_some.mp found, rfl⟩
      · cases taken
  · rw [if_neg inside] at taken
    cases taken

/-- `p` moves on by one argument at the most and stays in the vector. -/
theorem takeValue_bounds {β : Type} {ahead : Nat} {old new : β} {value : Arg → β}
    (taken : takeValue argv ahead p old value = some (p', new)) (inside : p < argv.length) :
    p ≤ p' ∧ p' < argv.length := by
  rcases takeValue_cases taken with ⟨-, same, -⟩ | ⟨-, next, arg, found, -⟩
  · omega
  · have bound := (List.getElem?_eq_some_iff.mp found).1
    omega

/-- The host buffer holds a name, and zeros behind it. -/
def Padded (host : Bytes) (name : Bytes) : Prop :=
  0 ∉ name ∧ name.length < hostlen ∧ host = name ++ List.replicate (hostlen - name.length) 0

/-- `copied` is less than the length of the buffer. -/
theorem copied_le (arg : Arg) : copied arg ≤ arg.bytes.length ∧ copied arg < hostlen := by
  unfold copied hostlen
  split
  · omega
  · omega

/-- `strncpy` puts the name over the front of the old one. -/
theorem Padded.strncpy {host name : Bytes} (padded : Padded host name) (arg : Arg) :
    Padded (strncpy host arg.bytes (copied arg))
      (arg.bytes.take (copied arg) ++ name.drop (copied arg)) := by
  obtain ⟨noNul, short, rfl⟩ := padded
  obtain ⟨bound, small⟩ := copied_le arg
  have width : (arg.bytes.take (copied arg)).length = copied arg := by
    rw [List.length_take]
    omega
  refine ⟨?_, ?_, ?_⟩
  · intro mem
    rcases List.mem_append.mp mem with front | back
    · exact arg.noNul (List.mem_of_mem_take front)
    · exact noNul (List.mem_of_mem_drop back)
  · rw [List.length_append, width, List.length_drop]
    omega
  · rw [Lcx.strncpy, Nat.sub_eq_zero_of_le bound, List.replicate_zero, List.append_nil,
      List.drop_append, List.drop_replicate, List.append_assoc, List.length_append, width,
      List.length_drop]
    congr 3
    omega

/-- A host that is taken keeps the buffer padded. -/
theorem takeHost_padded {ahead : Nat} {host host' : Bytes}
    (taken : takeHost argv ahead p host = some (p', host')) (padded : ∃ name, Padded host name) :
    ∃ name, Padded host' name := by
  rcases takeValue_cases taken with ⟨-, -, rfl⟩ | ⟨-, -, arg, -, rfl⟩
  · exact padded
  · obtain ⟨name, padded⟩ := padded
    exact ⟨_, padded.strncpy arg⟩

/-- What a branch of the loop does to `p` and to the buffer of the second host. -/
structure Moves (argv : List Arg) (p p' : Nat) (s s' : Settings) : Prop where
  /-- `p` moves on. -/
  forward : p < p'
  /-- It does not move behind the null pointer. -/
  inside : p' ≤ argv.length
  /-- The buffer stays padded. -/
  padded : (∃ name, Padded s.host2 name) → ∃ name, Padded s'.host2 name

/-- The branch of `-listen`. -/
theorem listenOption_moves (taken : listenOption argv p s = some (p', s'))
    (inside : p < argv.length) : Moves argv p p' s s' := by
  obtain ⟨⟨p₁, port1⟩, first, taken⟩ := Option.bind_eq_some_iff.mp taken
  obtain ⟨⟨p₂, port2⟩, second, taken⟩ := Option.bind_eq_some_iff.mp taken
  cases taken
  have bound₁ := takeValue_bounds first inside
  have bound₂ := takeValue_bounds second bound₁.2
  exact ⟨by omega, by omega, id⟩

/-- The branch of `-slave`. -/
theorem slaveOption_moves (taken : slaveOption argv p s = some (p', s'))
    (inside : p < argv.length) : Moves argv p p' s s' := by
  obtain ⟨⟨p₁, host1⟩, first, taken⟩ := Option.bind_eq_some_iff.mp taken
  obtain ⟨⟨p₂, port1⟩, second, taken⟩ := Option.bind_eq_some_iff.mp taken
  obtain ⟨⟨p₃, host2⟩, third, taken⟩ := Option.bind_eq_some_iff.mp taken
  obtain ⟨⟨p₄, port2⟩, fourth, taken⟩ := Option.bind_eq_some_iff.mp taken
  cases taken
  have bound₁ := takeValue_bounds first inside
  have bound₂ := takeValue_bounds second bound₁.2
  have bound₃ := takeValue_bounds third bound₂.2
  have bound₄ := takeValue_bounds fourth bound₃.2
  exact ⟨by omega, by omega, takeHost_padded third⟩

/-- The branch of `-tran`. -/
theorem tranOption_moves (taken : tranOption argv p s = some (p', s'))
    (inside : p < argv.length) : Moves argv p p' s s' := by
  obtain ⟨⟨p₁, port1⟩, first, taken⟩ := Option.bind_eq_some_iff.mp taken
  obtain ⟨⟨p₂, host2⟩, second, taken⟩ := Option.bind_eq_some_iff.mp taken
  obtain ⟨⟨p₃, port2⟩, third, taken⟩ := Option.bind_eq_some_iff.mp taken
  cases taken
  have bound₁ := takeValue_bounds first inside
  have bound₂ := takeValue_bounds second bound₁.2
  have bound₃ := takeValue_bounds third bound₂.2
  exact ⟨by omega, by omega, takeHost_padded second⟩

/-- The loop goes on from a branch that returns. -/
theorem ofBranch_again {branch : Option (Nat × Settings)}
    (goes : Progress.ofBranch branch = .again p' s') : branch = some (p', s') := by
  cases branch with
  | none => cases goes
  | some next =>
    cases goes
    rfl

/-- A round moves on in the vector. -/
theorem optionStep_moves (goes : optionStep argv p s = .again p' s') : Moves argv p p' s s' := by
  unfold optionStep at goes
  split at goes
  · cases goes
  · cases goes
  · rename_i arg found
    have inside := (List.getElem?_eq_some_iff.mp (element_some.mp found)).1
    split at goes
    · cases goes
    · exact listenOption_moves (ofBranch_again goes) inside
    · exact slaveOption_moves (ofBranch_again goes) inside
    · exact tranOption_moves (ofBranch_again goes) inside
    · split at goes
      · cases goes
      · rename_i str next
        split at goes
        · rename_i isValue
          cases goes
          -- The value of `-log` is no null pointer, so that `p` is in front of the end.
          have behind : p + 1 < argv.length := by
            cases str with
            | none => cases isValue
            | some value => exact (List.getElem?_eq_some_iff.mp (element_some.mp next)).1
          exact ⟨by omega, behind, id⟩
        · cases goes
    · cases goes
      exact ⟨by omega, inside, id⟩

/-- What holds wherever the loop comes to stand. -/
theorem Reaches.invariant (reached : Reaches argv p s) :
    p ≤ argv.length ∧ ∃ name, Padded s.host2 name := by
  induction reached with
  | start => exact ⟨Nat.zero_le _, [], by simp, by decide, rfl⟩
  | round _ goes before =>
    have moves := optionStep_moves goes
    exact ⟨moves.inside, moves.padded before.2⟩

/-- The rounds up to a place of the vector; there are not more of them than arguments before it. -/
theorem Reaches.rounds (reached : Reaches argv p s) :
    ∃ used ≤ p, ∀ rounds,
      optionLoop argv (used + rounds) 0 initial = optionLoop argv rounds p s := by
  induction reached with
  | start => exact ⟨0, Nat.le_refl _, fun rounds => by rw [Nat.zero_add]⟩
  | round _ goes before =>
    obtain ⟨used, bound, same⟩ := before
    have moves := optionStep_moves goes
    refine ⟨used + 1, by have := moves.forward; omega, fun rounds => ?_⟩
    rw [Nat.add_assoc, Nat.add_comm 1, same, optionLoop, goes]

end Rounds

/-! ## The branch of `-tran` -/

/-- The argument is a value and not an option. -/
def Arg.IsValue (arg : Arg) : Prop := testifisvalue (some arg) = true

/-- It can be decided whether an argument is a value. -/
instance (arg : Arg) : Decidable arg.IsValue := inferInstanceAs (Decidable (_ = _))

/-- The number of values that the branch of `-tran` takes before its last look, for the arguments
behind the option. -/
def takenBefore (rest : List Arg) : Nat :=
  if testifisvalue rest[0]? then if testifisvalue rest[2]? then 2 else 1
  else if testifisvalue rest[1]? then 1 else 0

/-- The arguments behind `-tran` reach as far as the last look of its branch. -/
def Room (rest : List Arg) : Prop := takenBefore rest + 2 ≤ rest.length

section Tran

variable {argv : List Arg} {p p' : Nat} {s s' : Settings}

/-- Where the branch of `-tran` stands before its last look. -/
theorem before_last_look {p₁ p₂ : Nat} {port1 : Int} {host2 : Bytes}
    (first : takePort argv 1 p s.port1 = some (p₁, port1))
    (second : takeHost argv 2 p₁ s.host2 = some (p₂, host2)) :
    p₂ = p + takenBefore (argv.drop (p + 1)) := by
  unfold takenBefore
  simp only [List.getElem?_drop, Nat.add_zero]
  rcases takeValue_cases first with ⟨look₁, rfl, -⟩ | ⟨look₁, rfl, -⟩
  · rw [look₁]
    rcases takeValue_cases second with ⟨look₂, rfl, -⟩ | ⟨look₂, rfl, -⟩
    · simp [look₂]
    · simp [look₂]
  · rw [look₁]
    rcases takeValue_cases second with ⟨look₂, rfl, -⟩ | ⟨look₂, rfl, -⟩
    · simp [look₂]
    · simp [look₂]

/-- What the first look takes is taken before the last one. -/
theorem le_takenBefore {p₁ : Nat} {port1 : Int}
    (first : takePort argv 1 p s.port1 = some (p₁, port1)) :
    p₁ ≤ p + takenBefore (argv.drop (p + 1)) := by
  unfold takenBefore
  simp only [List.getElem?_drop, Nat.add_zero]
  rcases takeValue_cases first with ⟨-, rfl, -⟩ | ⟨look, rfl, -⟩
  · exact Nat.le_add_right p₁ _
  · rw [if_pos look]
    split
    · omega
    · omega

/-- The branch of `-tran` reads behind the null pointer exactly when the arguments do not reach. -/
theorem tranOption_eq_none (here : p < argv.length) :
    tranOption argv p s = none ↔ ¬ Room (argv.drop (p + 1)) := by
  have length : (argv.drop (p + 1)).length = argv.length - (p + 1) := List.length_drop
  unfold Room
  cases first : takePort argv 1 p s.port1 with
  | none =>
    have short := (takeValue_eq_none Nat.one_pos).mp first
    omega
  | some next₁ =>
    obtain ⟨p₁, port1⟩ := next₁
    cases second : takeHost argv 2 p₁ s.host2 with
    | none =>
      have short := (takeValue_eq_none Nat.two_pos).mp second
      have bound := le_takenBefore first
      have isNone : tranOption argv p s = none := by simp [tranOption, first, second]
      simp only [isNone, true_iff]
      omega
    | some next₂ =>
      obtain ⟨p₂, host2⟩ := next₂
      have place := before_last_look first second
      have last : tranOption argv p s = none ↔ takePort argv 3 p₂ s.port2 = none := by
        cases third : takePort argv 3 p₂ s.port2 with
        | none => simp [tranOption, first, second, third]
        | some next₃ => simp [tranOption, first, second, third]
      rw [last, takePort, takeValue_eq_none (by decide)]
      omega

/-- The branch of `-tran` with three values: the last one is taken when the second argument behind
it is a value too. -/
theorem tranOption_values {p1 h2 p2 : Arg} {more : List Arg}
    (behind : argv.drop (p + 1) = p1 :: h2 :: p2 :: more) (is1 : p1.IsValue) (is2 : p2.IsValue)
    (goes : tranOption argv p s = some (p', s')) :
    s' = { s with
      method := .tran
      port1 := atol p1.bytes
      host2 := strncpy s.host2 h2.bytes (copied h2)
      port2 := if testifisvalue more[1]? then atol p2.bytes else s.port2 } ∧
    p' = if testifisvalue more[1]? then p + 4 else p + 3 := by
  have at_ : ∀ i, argv[p + 1 + i]? = (p1 :: h2 :: p2 :: more)[i]? := by
    intro i
    rw [← behind, List.getElem?_drop]
  have at1 : argv[p + 1]? = some p1 := at_ 0
  have at2 : argv[p + 1 + 1]? = some h2 := at_ 1
  have at3 : argv[p + 1 + 2]? = some p2 := at_ 2
  have at3' : argv[p + 1 + 1 + 1]? = some p2 := at_ 2
  have at5 : argv[p + 1 + 1 + 3]? = more[1]? := at_ 4
  obtain ⟨⟨p₁, port1⟩, first, goes⟩ := Option.bind_eq_some_iff.mp goes
  obtain ⟨⟨p₂, host2⟩, second, goes⟩ := Option.bind_eq_some_iff.mp goes
  obtain ⟨⟨p₃, port2⟩, third, goes⟩ := Option.bind_eq_some_iff.mp goes
  cases goes
  rcases takeValue_cases first with ⟨look, -⟩ | ⟨-, rfl, arg, found, rfl⟩
  · rw [at1, is1] at look
    cases look
  obtain rfl := Option.some.inj (at1.symm.trans found)
  rcases takeValue_cases second with ⟨look, -⟩ | ⟨-, rfl, arg, found, rfl⟩
  · rw [at3, is2] at look
    cases look
  obtain rfl := Option.some.inj (at2.symm.trans found)
  rcases takeValue_cases third with ⟨look, rfl, rfl⟩ | ⟨look, rfl, arg, found, rfl⟩
  · rw [at5] at look
    simp [look]
  · rw [at5] at look
    obtain rfl := Option.some.inj (at3'.symm.trans found)
    simp [look]

end Tran

/-! ## Vectors -/

/-- `-tran` and three values stand at a place of the vector. -/
structure TranAt (argv : List Arg) (p : Nat) (p1 h2 p2 : Arg) : Prop where
  /-- The option. -/
  option : (argv[p]?).bind optionName = some .tran
  /-- The arguments behind it. -/
  behind : [p1, h2, p2] <+: argv.drop (p + 1)
  /-- The first one is a value. -/
  first : p1.IsValue
  /-- The second one is a value. -/
  second : h2.IsValue
  /-- The third one is a value. -/
  third : p2.IsValue

/-- The string in a buffer. -/
def stringIn (buffer : Bytes) : Bytes := buffer.takeWhile (· ≠ 0)

/-- The variables as the option with these values sets them. -/
structure SetTo (s : Settings) (p1 h2 p2 : Arg) : Prop where
  /-- `method`. -/
  method : s.method = .tran
  /-- `port1`. -/
  port1 : s.port1 = atol p1.bytes
  /-- `host2`, cut to the length of the buffer. -/
  host2 : stringIn s.host2 = h2.bytes.take (hostlen - 1)
  /-- `port2`. -/
  port2 : s.port2 = atol p2.bytes

/-- What the loop is to do with a vector: it does not read behind the null pointer, and from each
`-tran` with three values it goes on with the variables set, and ends with them when no option
follows. -/
structure ParsesTran (argv : List Arg) : Prop where
  /-- The loop ends. -/
  ends : ∀ p s, parse argv ≠ .again p s
  /-- It does not read behind the null pointer. -/
  inside : parse argv ≠ .beyond
  /-- The variables. -/
  sets : ∀ p p1 h2 p2, TranAt argv p p1 h2 p2 → ∃ s p' s', Reaches argv p s ∧
    optionStep argv p s = .again p' s' ∧ SetTo s' p1 h2 p2 ∧
    ((∀ arg ∈ argv.drop (p + 4), optionName arg = none) → parse argv = .ends s')

/-- The arguments behind `-tran` and the variables before it let its branch set the variables: the
arguments reach as far as it looks, and with three values, the second argument behind them is a
value, or the second port is the wanted one before, and the second host was not longer. -/
def TranOk (rest : List Arg) (s : Settings) : Prop :=
  Room rest ∧ ∀ p1 h2 p2 more, rest = p1 :: h2 :: p2 :: more → p1.IsValue → h2.IsValue →
    p2.IsValue → (testifisvalue more[1]? = true ∨ s.port2 = atol p2.bytes) ∧
      (stringIn s.host2).length ≤ copied h2

section Vectors

variable {argv : List Arg} {p p' : Nat} {s s' : Settings}

/-- The loop from a place where it stands. -/
theorem Reaches.parse_eq (reached : Reaches argv p s) :
    ∃ rounds, argv.length < p + rounds ∧ parse argv = optionLoop argv rounds p s := by
  obtain ⟨used, bound, same⟩ := reached.rounds
  have inside := reached.invariant.1
  refine ⟨argv.length + 1 - used, by omega, ?_⟩
  rw [← same, parse]
  congr 1
  omega

/-- Rounds that go on move on. -/
theorem optionLoop_forward {rounds : Nat} (goes : optionLoop argv rounds p s = .again p' s') :
    p ≤ p' ∧ (p = p' → s = s') := by
  induction rounds generalizing p s with
  | zero =>
    cases goes
    exact ⟨Nat.le_refl _, fun _ => rfl⟩
  | succ rounds later =>
    rw [optionLoop] at goes
    cases first : optionStep argv p s with
    | again next s₁ =>
      rw [first] at goes
      have forward := (optionStep_moves first).forward
      have bound := (later goes).1
      exact ⟨by omega, fun same => by omega⟩
    | ends _ => rw [first] at goes; cases goes
    | version => rw [first] at goes; cases goes
    | noLogfile => rw [first] at goes; cases goes
    | beyond => rw [first] at goes; cases goes

/-- The loop comes to a place of the vector once. -/
theorem Reaches.unique (first : Reaches argv p s) (second : Reaches argv p s') : s = s' := by
  obtain ⟨used, -, same⟩ := first.rounds
  obtain ⟨used', -, same'⟩ := second.rounds
  rcases Nat.le_total used used' with before | before
  · have goes := same (used' - used)
    rw [Nat.add_sub_cancel' before] at goes
    exact (optionLoop_forward (goes.symm.trans (same' 0))).2 rfl
  · have goes := same' (used - used')
    rw [Nat.add_sub_cancel' before] at goes
    exact ((optionLoop_forward (goes.symm.trans (same 0))).2 rfl).symm

/-- The loop has a round for each argument at the most. -/
theorem optionLoop_ne_again {rounds : Nat} (inside : p ≤ argv.length)
    (enough : argv.length < p + rounds) : optionLoop argv rounds p s ≠ .again p' s' := by
  induction rounds generalizing p s with
  | zero => omega
  | succ rounds later =>
    rw [optionLoop]
    cases goes : optionStep argv p s with
    | again next s₁ =>
      have moves := optionStep_moves goes
      have forward := moves.forward
      exact later moves.inside (by omega)
    | ends _ => simp
    | version => simp
    | noLogfile => simp
    | beyond => simp

/-- A loop that reads behind the null pointer does so in a round. -/
theorem exists_beyond {rounds : Nat} (reached : Reaches argv p s)
    (beyond : optionLoop argv rounds p s = .beyond) :
    ∃ p s, Reaches argv p s ∧ optionStep argv p s = .beyond := by
  induction rounds generalizing p s with
  | zero => cases beyond
  | succ rounds later =>
    rw [optionLoop] at beyond
    cases goes : optionStep argv p s with
    | again next s₁ =>
      rw [goes] at beyond
      exact later (.round reached goes) beyond
    | beyond => exact ⟨p, s, reached, goes⟩
    | ends _ => rw [goes] at beyond; cases beyond
    | version => rw [goes] at beyond; cases beyond
    | noLogfile => rw [goes] at beyond; cases beyond

/-- The loop reads behind the null pointer exactly when a round does. -/
theorem parse_eq_beyond :
    parse argv = .beyond ↔ ∃ p s, Reaches argv p s ∧ optionStep argv p s = .beyond := by
  constructor
  · exact exists_beyond .start
  · rintro ⟨p, s, reached, beyond⟩
    obtain ⟨rounds, enough, same⟩ := reached.parse_eq
    have inside := reached.invariant.1
    obtain ⟨rounds, rfl⟩ : ∃ n, rounds = n + 1 := ⟨rounds - 1, by omega⟩
    rw [same, optionLoop, beyond]

/-- A round at an argument that is no option. -/
theorem optionStep_plain {arg : Arg} (here : argv[p]? = some arg) (plain : optionName arg = none) :
    optionStep argv p s = .again (p + 1) s := by
  rw [optionStep, element_some.mpr here]
  simp only [plain]

/-- Without options the loop comes to the end of the vector. -/
theorem optionLoop_ends {rounds : Nat} (inside : p ≤ argv.length)
    (enough : argv.length < p + rounds) (plain : ∀ arg ∈ argv.drop p, optionName arg = none) :
    optionLoop argv rounds p s = .ends s := by
  induction rounds generalizing p with
  | zero => omega
  | succ rounds later =>
    rw [optionLoop]
    rcases Nat.lt_or_eq_of_le inside with before | rfl
    · have split : argv.drop p = argv[p] :: argv.drop (p + 1) := List.drop_eq_getElem_cons before
      rw [split] at plain
      rw [optionStep_plain (List.getElem?_eq_getElem before) (plain _ List.mem_cons_self)]
      exact later before (by omega) fun arg mem => plain arg (List.mem_cons_of_mem _ mem)
    · simp [optionStep, element]

/-- A value is no option. -/
theorem Arg.IsValue.optionName_eq {arg : Arg} (isValue : arg.IsValue) : optionName arg = none := by
  rw [optionName, List.find?_eq_none]
  intro name _ same
  have bytes : arg.bytes = name.bytes := eq_of_beq same
  rw [Arg.IsValue, testifisvalue, bytes] at isValue
  cases name <;> simp [OptionName.bytes] at isValue

/-- A round at `-tran`. -/
theorem optionStep_tran (option : (argv[p]?).bind optionName = some .tran) :
    p < argv.length ∧ optionStep argv p s = .ofBranch (tranOption argv p s) := by
  obtain ⟨arg, here, isTran⟩ := Option.bind_eq_some_iff.mp option
  refine ⟨(List.getElem?_eq_some_iff.mp here).1, ?_⟩
  rw [optionStep, element_some.mpr here]
  simp only [isTran]

/-- A branch that looks at the next argument only does not look behind the null pointer. -/
theorem exists_takeValue {β : Type} (old : β) (value : Arg → β) (inside : p < argv.length) :
    ∃ p' new, takeValue argv 1 p old value = some (p', new) ∧ p' < argv.length := by
  cases taken : takeValue argv 1 p old value with
  | none =>
    have short := (takeValue_eq_none Nat.one_pos).mp taken
    omega
  | some next => exact ⟨next.1, next.2, rfl, (takeValue_bounds taken inside).2⟩

/-- The branch of `-listen` does not read behind the null pointer. -/
theorem listenOption_ne_none (inside : p < argv.length) : listenOption argv p s ≠ none := by
  obtain ⟨p₁, port1, first, inside₁⟩ := exists_takeValue s.port1 (fun arg => atol arg.bytes) inside
  obtain ⟨p₂, port2, second, -⟩ := exists_takeValue s.port2 (fun arg => atol arg.bytes) inside₁
  simp [listenOption, takePort, first, second]

/-- The branch of `-slave` does not read behind the null pointer. -/
theorem slaveOption_ne_none (inside : p < argv.length) : slaveOption argv p s ≠ none := by
  obtain ⟨p₁, host1, first, inside₁⟩ := exists_takeValue s.host1
    (fun arg => strncpy s.host1 arg.bytes (copied arg)) inside
  obtain ⟨p₂, port1, second, inside₂⟩ :=
    exists_takeValue s.port1 (fun arg => atol arg.bytes) inside₁
  obtain ⟨p₃, host2, third, inside₃⟩ := exists_takeValue s.host2
    (fun arg => strncpy s.host2 arg.bytes (copied arg)) inside₂
  obtain ⟨p₄, port2, fourth, -⟩ := exists_takeValue s.port2 (fun arg => atol arg.bytes) inside₃
  simp [slaveOption, takePort, takeHost, first, second, third, fourth]

/-- The loop goes on from a branch unless it reads behind the null pointer. -/
theorem ofBranch_beyond {branch : Option (Nat × Settings)} :
    Progress.ofBranch branch = .beyond ↔ branch = none := by
  cases branch with
  | none => simp [Progress.ofBranch]
  | some next => simp [Progress.ofBranch]

/-- Only the branch of `-tran` reads behind the null pointer. -/
theorem optionStep_beyond (inside : p ≤ argv.length) (beyond : optionStep argv p s = .beyond) :
    (argv[p]?).bind optionName = some .tran ∧ tranOption argv p s = none := by
  unfold optionStep at beyond
  split at beyond
  · rename_i outside
    rw [element, if_pos inside] at outside
    cases outside
  · cases beyond
  · rename_i arg found
    have here := element_some.mp found
    have before := (List.getElem?_eq_some_iff.mp here).1
    split at beyond
    · cases beyond
    · exact absurd (ofBranch_beyond.mp beyond) (listenOption_ne_none before)
    · exact absurd (ofBranch_beyond.mp beyond) (slaveOption_ne_none before)
    · rename_i isTran
      exact ⟨by rw [here]; exact isTran, ofBranch_beyond.mp beyond⟩
    · split at beyond
      · rename_i outside
        rw [element, if_pos (Nat.succ_le_of_lt before)] at outside
        cases outside
      · split at beyond <;> cases beyond
    · cases beyond

/-- The string in a padded buffer. -/
theorem Padded.stringIn_eq {host name : Bytes} (padded : Padded host name) :
    stringIn host = name := by
  obtain ⟨noNul, -, rfl⟩ := padded
  have plain : ∀ c ∈ name, decide (c ≠ 0) = true := by
    intro c mem
    rw [decide_eq_true_iff]
    rintro rfl
    exact noNul mem
  rw [stringIn, List.takeWhile_append_of_pos plain, List.takeWhile_replicate]
  simp

/-- The bytes of a host name that fit. -/
theorem take_copied (arg : Arg) : arg.bytes.take (copied arg) = arg.bytes.take (hostlen - 1) := by
  unfold copied
  split
  · rfl
  · rw [List.take_length, List.take_of_length_le (by omega)]

/-- The host name takes the place of one that was not longer. -/
theorem Padded.stringIn_strncpy {host name : Bytes} (padded : Padded host name) (arg : Arg) :
    stringIn (Lcx.strncpy host arg.bytes (copied arg)) = arg.bytes.take (hostlen - 1) ↔
      (stringIn host).length ≤ copied arg := by
  rw [(padded.strncpy arg).stringIn_eq, padded.stringIn_eq, take_copied, List.append_right_eq_self,
    List.drop_eq_nil_iff]

/-- Three values behind `-tran`. -/
theorem TranAt.exists_more {p1 h2 p2 : Arg} (tranAt : TranAt argv p p1 h2 p2) :
    ∃ more, argv.drop (p + 1) = p1 :: h2 :: p2 :: more ∧ argv.drop (p + 4) = more := by
  obtain ⟨more, split⟩ := tranAt.behind
  have further : argv.drop (p + 4) = (argv.drop (p + 1)).drop 3 := by
    rw [List.drop_drop]
  exact ⟨more, split.symm, by rw [further, ← split]; rfl⟩

/-- A round at `-tran` with three values sets the variables exactly when what is around it lets its
branch do so. -/
theorem TranAt.setTo_iff {p1 h2 p2 : Arg} {more : List Arg} (tranAt : TranAt argv p p1 h2 p2)
    (behind : argv.drop (p + 1) = p1 :: h2 :: p2 :: more) (reached : Reaches argv p s)
    (goes : optionStep argv p s = .again p' s') :
    SetTo s' p1 h2 p2 ↔ (testifisvalue more[1]? = true ∨ s.port2 = atol p2.bytes) ∧
      (stringIn s.host2).length ≤ copied h2 := by
  rw [(optionStep_tran tranAt.option).2] at goes
  obtain ⟨name, padded⟩ := reached.invariant.2
  obtain ⟨rfl, -⟩ := tranOption_values behind tranAt.first tranAt.third (ofBranch_again goes)
  have host := padded.stringIn_strncpy h2
  have port : (if testifisvalue more[1]? then atol p2.bytes else s.port2) = atol p2.bytes ↔
      testifisvalue more[1]? = true ∨ s.port2 = atol p2.bytes := by
    cases testifisvalue more[1]? with
    | true => simp
    | false => simp
  constructor
  · intro set
    exact ⟨port.mp set.port2, host.mp set.host2⟩
  · rintro ⟨later, short⟩
    exact ⟨rfl, rfl, host.mpr short, port.mpr later⟩

/-- When no option follows the three values, the loop ends with the variables after the round. -/
theorem TranAt.parse_eq {p1 h2 p2 : Arg} (tranAt : TranAt argv p p1 h2 p2)
    (reached : Reaches argv p s) (goes : optionStep argv p s = .again p' s')
    (plain : ∀ arg ∈ argv.drop (p + 4), optionName arg = none) : parse argv = .ends s' := by
  obtain ⟨more, behind, rest⟩ := tranAt.exists_more
  have after_ : Reaches argv p' s' := .round reached goes
  obtain ⟨rounds, enough, same⟩ := after_.parse_eq
  rw [same]
  apply optionLoop_ends after_.invariant.1 enough
  rw [(optionStep_tran tranAt.option).2] at goes
  obtain ⟨-, place⟩ := tranOption_values behind tranAt.first tranAt.third (ofBranch_again goes)
  rw [place]
  split
  · exact plain
  · -- The third value was not taken, and is passed over as no option.
    have last : argv.drop (p + 3) = p2 :: argv.drop (p + 4) := by
      have two : argv.drop (p + 3) = (argv.drop (p + 1)).drop 2 := by rw [List.drop_drop]
      rw [two, behind, rest]
      rfl
    rw [last]
    intro arg mem
    rcases List.mem_cons.mp mem with rfl | later
    · exact tranAt.third.optionName_eq
    · exact plain arg later

end Vectors

/-- For every vector: the loop does not read behind the null pointer and sets the variables for each
`-tran` with three values exactly when it comes to stand at each of these and, at every `-tran`
where it stands, the arguments behind it and the variables before it let the branch do so. -/
theorem option_loop_iff (argv : List Arg) : ParsesTran argv ↔
    (∀ p p1 h2 p2, TranAt argv p p1 h2 p2 → ∃ s, Reaches argv p s) ∧
      ∀ p s, Reaches argv p s → (argv[p]?).bind optionName = some .tran →
        TranOk (argv.drop (p + 1)) s := by
  constructor
  · intro parses
    refine ⟨?_, ?_⟩
    · intro p p1 h2 p2 tranAt
      obtain ⟨s, -, -, reached, -⟩ := parses.sets p p1 h2 p2 tranAt
      exact ⟨s, reached⟩
    · intro p s reached option
      obtain ⟨here, branch⟩ := optionStep_tran (s := s) option
      refine ⟨?_, ?_⟩
      · by_contra short
        have isNone := (tranOption_eq_none (s := s) here).mpr short
        rw [isNone] at branch
        exact parses.inside (parse_eq_beyond.mpr ⟨p, s, reached, branch⟩)
      · intro p1 h2 p2 more behind first second third
        have tranAt : TranAt argv p p1 h2 p2 :=
          ⟨option, ⟨more, behind.symm⟩, first, second, third⟩
        obtain ⟨s₁, p', s', reached₁, goes, set, -⟩ := parses.sets p p1 h2 p2 tranAt
        rw [← reached.unique reached₁] at goes
        exact (tranAt.setTo_iff behind reached goes).mp set
  · rintro ⟨arrives, ok⟩
    refine ⟨?_, ?_, ?_⟩
    · intro p s
      exact optionLoop_ne_again (Nat.zero_le _) (by omega)
    · intro beyond
      obtain ⟨p, s, reached, stops⟩ := parse_eq_beyond.mp beyond
      obtain ⟨option, isNone⟩ := optionStep_beyond reached.invariant.1 stops
      obtain ⟨here, -⟩ := optionStep_tran (s := s) option
      exact (tranOption_eq_none here).mp isNone (ok p s reached option).1
    · intro p p1 h2 p2 tranAt
      obtain ⟨s, reached⟩ := arrives p p1 h2 p2 tranAt
      obtain ⟨room, sets⟩ := ok p s reached tranAt.option
      obtain ⟨more, behind, -⟩ := tranAt.exists_more
      obtain ⟨here, branch⟩ := optionStep_tran (s := s) tranAt.option
      cases taken : tranOption argv p s with
      | none => exact absurd room ((tranOption_eq_none here).mp taken)
      | some next =>
        rw [taken] at branch
        have goes : optionStep argv p s = .again next.1 next.2 := branch
        have set := (tranAt.setTo_iff behind reached goes).mpr
          (sets p1 h2 p2 more behind tranAt.first tranAt.second tranAt.third)
        exact ⟨s, next.1, next.2, reached, goes, set, tranAt.parse_eq reached goes⟩

/-- The program name. -/
def lcxArg : Arg := ⟨[108, 99, 120], by decide⟩

/-- The option. -/
def tranArg : Arg := ⟨OptionName.tran.bytes, by decide⟩

/-- The value `1`. -/
def oneArg : Arg := ⟨[49], by decide⟩

/-- The value `2`. -/
def twoArg : Arg := ⟨[50], by decide⟩

/-- The value `h`. -/
def hostArg : Arg := ⟨[104], by decide⟩

/-- `lcx -tran 1 h 2` reads behind the null pointer, and `lcx -tran 1 h 2 h` does not set the second
port. -/
theorem option_loop_tran :
    parse [lcxArg, tranArg, oneArg, hostArg, twoArg] = .beyond ∧
      ¬ ParsesTran [lcxArg, tranArg, oneArg, hostArg, twoArg] ∧
      (∃ s, parse [lcxArg, tranArg, oneArg, hostArg, twoArg, hostArg] = .ends s ∧
        s.method = .tran ∧ s.port1 = 1 ∧ s.port2 = 0) ∧
      ¬ ParsesTran [lcxArg, tranArg, oneArg, hostArg, twoArg, hostArg] := by
  have beyond : parse [lcxArg, tranArg, oneArg, hostArg, twoArg] = .beyond := by decide +kernel
  refine ⟨beyond, fun parses => parses.inside beyond, ⟨_, rfl, by decide +kernel⟩, ?_⟩
  intro parses
  have tranAt : TranAt [lcxArg, tranArg, oneArg, hostArg, twoArg, hostArg] 1 oneArg hostArg
      twoArg := ⟨by decide, by decide, by decide, by decide, by decide⟩
  obtain ⟨s, p', s', -, -, set, ends⟩ := parses.sets 1 oneArg hostArg twoArg tranAt
  have final : parse [lcxArg, tranArg, oneArg, hostArg, twoArg, hostArg] = .ends s' :=
    ends (by decide)
  have port := set.port2
  rw [parse] at final
  cases final
  exact absurd port (by decide +kernel)

end CodeLearning.Lcx
