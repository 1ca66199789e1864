import BloomFilters.HelperFuncs
import Mathlib.Data.List.TakeWhile
import Mathlib.Data.Nat.Digits.Defs

/-! # The command line

    `parse_args` and `parse_number` of `src/bench.cpp`, and the grammar that
    the README documents. A command-line argument is the string of its
    characters; the program name is not among `args`.

    * **Parsing**: the loop over the arguments, an option at a time.
    * **Numbers**: what `std::stoull` reads to the end is white space, a
      sign, and digits.
    * **Grammar**: items in any order, the last one of each option wins.

    The grammar has digits only, so the two differ where a number is written
    with a sign or with white space in front.
-/

open Checked

namespace BloomFilters

/-! ## Parsing -/

/-- `struct Config` -/
structure Config where
  rows : Word := 720721
  negative_queries : Word := 720721
  hot_runs : Word := 10
  warmup_runs : Word := 1
  csv_path : String := ""
  deriving DecidableEq, Repr

/-- How parsing ends without a configuration: with one of the exceptions of
    the standard library, or with `std::exit`. -/
inductive Stop where
  | invalid_argument (what : String)
  | out_of_range (what : String)
  | exit (code : Nat)
  deriving DecidableEq, Repr

/-- `std::isspace` in the "C" locale -/
def isspace (c : Char) : Bool := c = ' ' || (9 ≤ c.toNat && c.toNat ≤ 13)

/-- The sign that `std::stoull` accepts: whether it is a minus, and what
    follows. -/
def sign : List Char → Bool × List Char
  | '-' :: s => (true, s)
  | '+' :: s => (false, s)
  | s => (false, s)

/-- `std::stoull(number_value, &consumed)` in base 10: the value and
    `consumed`. A minus sign negates modulo `2 ^ 64`. -/
def stoull (number_value : String) : Except Stop (Word × Nat) :=
  let (negative, s) := sign (number_value.toList.dropWhile isspace)
  let digits := s.takeWhile Char.isDigit
  let value := digits.foldl (fun v c => 10 * v + (c.toNat - '0'.toNat)) 0
  if digits = [] then .error (.invalid_argument "stoull")
  else if 2 ^ 64 ≤ value then .error (.out_of_range "stoull")
  else .ok (if negative then -BitVec.ofNat 64 value else BitVec.ofNat 64 value,
    number_value.length - (s.dropWhile Char.isDigit).length)

/-- Whatever goes wrong, the `catch` clause turns it into one exception. -/
def parse_number (arg option : String) : Except Stop Word :=
  tryCatch
    (do let (parsed, consumed) ← stoull arg
        if consumed ≠ arg.length then
          throw (.invalid_argument ("Invalid value for " ++ option ++ ": " ++ arg))
        if BitVec.allOnes 64 < parsed then
          throw (.invalid_argument ("Value too large for " ++ option))
        return parsed)
    fun _ => throw (.invalid_argument ("Invalid value for " ++ option ++ ": " ++ arg))

/-- `confirm_next` at the end of the arguments. -/
def missing_value (option : String) : Except Stop Config :=
  .error (.invalid_argument ("Missing value for " ++ option))

/-- The loop over the arguments; an option takes the next one as its value. -/
def parse_args.loop (config : Config) : List String → Except Stop Config
  | [] => .ok config
  | cur_arg :: rest =>
    if cur_arg = "-nr" then
      match rest with
      | [] => missing_value "-nr"
      | value :: rest => do
        let rows ← parse_number value "-nr"
        loop { config with rows := rows, negative_queries := rows } rest
    else if cur_arg = "-r" then
      match rest with
      | [] => missing_value "-r"
      | value :: rest => do
        let hot_runs ← parse_number value "-r"
        loop { config with hot_runs := hot_runs } rest
    else if cur_arg = "-wr" then
      match rest with
      | [] => missing_value "-wr"
      | value :: rest => do
        let warmup_runs ← parse_number value "-wr"
        loop { config with warmup_runs := warmup_runs } rest
    else if cur_arg = "-f" then
      match rest with
      | [] => missing_value "-f"
      | value :: rest => loop { config with csv_path := value } rest
    else if cur_arg = "--help" ∨ cur_arg = "-h" then .error (.exit 0)
    else .error (.invalid_argument ("Unknown option: " ++ cur_arg))

def parse_args (args : List String) : Except Stop Config := do
  let config ← parse_args.loop {} args
  if config.rows = 0 then throw (.invalid_argument "-r cannot be zero.\n")
  else if config.hot_runs = 0 then throw (.invalid_argument "-r cannot be zero.\n")
  else return config

example : parse_args ["-nr", "17", "-f", "x.csv"] =
    .ok { rows := 17, negative_queries := 17, csv_path := "x.csv" } := by decide

/-- What an option with its value does to the configuration. -/
inductive SetsOption : String → String → Config → Config → Prop where
  | rows {value : String} {config : Config} {n : Word} (h : parse_number value "-nr" = .ok n) :
      SetsOption "-nr" value config { config with rows := n, negative_queries := n }
  | hot_runs {value : String} {config : Config} {n : Word} (h : parse_number value "-r" = .ok n) :
      SetsOption "-r" value config { config with hot_runs := n }
  | warmup_runs {value : String} {config : Config} {n : Word}
      (h : parse_number value "-wr" = .ok n) :
      SetsOption "-wr" value config { config with warmup_runs := n }
  | csv_path {value : String} {config : Config} :
      SetsOption "-f" value config { config with csv_path := value }

/-- The argument lists that the loop accepts, and what becomes of the
    configuration. -/
inductive Accepts : Config → List String → Config → Prop where
  | done (config : Config) : Accepts config [] config
  | option {cur_arg value : String} {rest : List String} {config next config' : Config}
      (hset : SetsOption cur_arg value config next) (hrest : Accepts next rest config') :
      Accepts config (cur_arg :: value :: rest) config'

theorem parse_args.accepts_of_loop {config config' : Config} {args : List String}
    (h : parse_args.loop config args = .ok config') : Accepts config args config' := by
  fun_induction parse_args.loop config args with
  | case1 config =>
    cases h
    exact .done _
  | case3 config value rest ih =>
    obtain ⟨n, hn, hrest⟩ := exists_of_bind_ok h
    exact .option (.rows hn) (ih n hrest)
  | case5 config value rest _ ih =>
    obtain ⟨n, hn, hrest⟩ := exists_of_bind_ok h
    exact .option (.hot_runs hn) (ih n hrest)
  | case7 config value rest _ _ ih =>
    obtain ⟨n, hn, hrest⟩ := exists_of_bind_ok h
    exact .option (.warmup_runs hn) (ih n hrest)
  | case9 config value rest _ _ _ ih => exact .option .csv_path (ih h)
  -- A missing value, a request for help, an unknown option.
  | case2 | case4 | case6 | case8 | case10 | case11 => cases h

/-- **Loop invariant**: no option separates the two counts. -/
theorem Accepts.coupled {config config' : Config} {args : List String}
    (h : Accepts config args config') (hcoupled : config.rows = config.negative_queries) :
    config'.rows = config'.negative_queries := by
  induction h with
  | done => exact hcoupled
  | option hset _ ih =>
    apply ih
    -- `-nr` sets both counts, the other options none.
    cases hset with
    | rows => rfl
    | hot_runs | warmup_runs | csv_path => exact hcoupled

/-- What the loop returns is returned, unless one of the two checks throws. -/
theorem parse_args_eq_ok {args : List String} {config : Config} :
    parse_args args = .ok config ↔
      parse_args.loop {} args = .ok config ∧ config.rows ≠ 0 ∧ config.hot_runs ≠ 0 := by
  constructor
  · intro h
    obtain ⟨config', hloop, hchecks⟩ := exists_of_bind_ok h
    split at hchecks
    · cases hchecks
    · next hrows =>
      split at hchecks
      · cases hchecks
      · next hruns =>
        cases hchecks
        exact ⟨hloop, hrows, hruns⟩
  · intro h
    obtain ⟨hloop, hrows, hruns⟩ := h
    unfold parse_args
    rw [hloop, ok_bind, if_neg hrows, if_neg hruns]
    rfl

/-- What every configuration that `parse_args` returns satisfies. -/
theorem parse_args_ok {args : List String} {config : Config} (h : parse_args args = .ok config) :
    config.rows = config.negative_queries ∧ 1 ≤ config.rows.toNat ∧ 1 ≤ config.hot_runs.toNat := by
  obtain ⟨hloop, hrows, hruns⟩ := parse_args_eq_ok.mp h
  have hcoupled := (parse_args.accepts_of_loop hloop).coupled rfl
  have hpos : ∀ n : Word, n ≠ 0 → 1 ≤ n.toNat := by
    intro n hn
    have hne : n.toNat ≠ 0 := fun hzero => hn (BitVec.eq_of_toNat_eq hzero)
    omega
  exact ⟨hcoupled, hpos _ hrows, hpos _ hruns⟩

/-! ## Numbers -/

/-- The number that a list of decimal digits denotes. -/
def decimal (digits : List Char) : Nat :=
  Nat.ofDigits 10 (digits.reverse.map fun c => c.toNat - '0'.toNat)

theorem foldl_eq_decimal (digits : List Char) :
    digits.foldl (fun v c => 10 * v + (c.toNat - '0'.toNat)) 0 = decimal digits := by
  unfold decimal
  rw [Nat.ofDigits_eq_foldr, List.foldr_map, List.foldr_reverse]
  simp only [Nat.cast_id, Nat.add_comm]

/-- A number as documented: a non-empty string of decimal digits whose value
    fits into `std::size_t`. -/
structure IsNumber (s : String) (n : Word) : Prop where
  nonempty : s.toList ≠ []
  digits : ∀ c ∈ s.toList, c.isDigit = true
  fits : decimal s.toList < 2 ^ 64
  value : n = BitVec.ofNat 64 (decimal s.toList)

/-- The signs that `std::stoull` accepts. -/
inductive NumberSign where
  | none
  | plus
  | minus

def NumberSign.text : NumberSign → List Char
  | .none => []
  | .plus => ['+']
  | .minus => ['-']

def NumberSign.apply : NumberSign → Word → Word
  | .none, n => n
  | .plus, n => n
  | .minus, n => -n

/-- A number as `std::stoull` reads it: white space, a sign, and digits. -/
def IsSignedNumber (s : String) (n : Word) : Prop :=
  ∃ spaces sgn digits, s.toList = spaces ++ (NumberSign.text sgn ++ digits) ∧
    (∀ c ∈ spaces, isspace c = true) ∧ digits ≠ [] ∧ (∀ c ∈ digits, c.isDigit = true) ∧
    decimal digits < 2 ^ 64 ∧ n = sgn.apply (BitVec.ofNat 64 (decimal digits))

theorem IsNumber.isSignedNumber {s : String} {n : Word} (h : IsNumber s n) :
    IsSignedNumber s n :=
  ⟨[], .none, s.toList, rfl, by simp, h.nonempty, h.digits, h.fits, h.value⟩

theorem not_isspace_of_isDigit {c : Char} (h : c.isDigit = true) : isspace c = false := by
  have hdigit : 48 ≤ c.toNat ∧ c.toNat ≤ 57 := Char.isDigit_iff_toNat.mp h
  have hne : c ≠ ' ' := by
    intro hc
    rw [hc] at hdigit
    revert hdigit
    decide
  -- The blank is no digit, and the other white space lies below the digits.
  unfold isspace
  simp [hne]
  omega

/-- The scanner stops in front of the sign and takes it off. -/
theorem sign_dropWhile {spaces digits : List Char} {sgn : NumberSign}
    (hspaces : ∀ c ∈ spaces, isspace c = true) (hne : digits ≠ [])
    (hdigits : ∀ c ∈ digits, c.isDigit = true) :
    sign ((spaces ++ (sgn.text ++ digits)).dropWhile isspace) =
      (match sgn with | .minus => true | _ => false, digits) := by
  obtain ⟨d, ds, rfl⟩ := List.exists_cons_of_ne_nil hne
  have hd : d.isDigit = true := hdigits d (by simp)
  have hspace := not_isspace_of_isDigit hd
  rw [List.dropWhile_append_of_pos hspaces]
  cases sgn with
  | none =>
    -- Without a sign the digits follow; none of them is taken for a sign.
    have hplus : d ≠ '+' := by rintro rfl; revert hd; decide
    have hminus : d ≠ '-' := by rintro rfl; revert hd; decide
    simp only [NumberSign.text, List.nil_append, List.dropWhile_cons, hspace, Bool.false_eq_true,
      if_false]
    unfold sign
    split
    · next heq => exact absurd (List.cons.inj heq).1 hminus
    · next heq => exact absurd (List.cons.inj heq).1 hplus
    · rfl
  | plus => rfl
  | minus => rfl

/-- What the scanner has passed over is white space and a sign. -/
theorem exists_sign (cs : List Char) : ∃ spaces sgn,
    cs = spaces ++ (NumberSign.text sgn ++ (sign (cs.dropWhile isspace)).2) ∧
      (∀ c ∈ spaces, isspace c = true) ∧
      ∀ n : Word, sgn.apply n = if (sign (cs.dropWhile isspace)).1 then -n else n := by
  have hsplit : cs = cs.takeWhile isspace ++ cs.dropWhile isspace :=
    List.takeWhile_append_dropWhile.symm
  have hspaces : ∀ c ∈ cs.takeWhile isspace, isspace c = true := fun _ => List.mem_takeWhile_imp
  cases hrest : cs.dropWhile isspace with
  | nil =>
    rw [hrest] at hsplit
    exact ⟨_, .none, hsplit, hspaces, fun _ => rfl⟩
  | cons c t =>
    rw [hrest] at hsplit
    -- What stops the scan is a minus, a plus, or the first character of the number.
    by_cases hminus : c = '-'
    · subst hminus
      exact ⟨_, .minus, hsplit, hspaces, fun _ => rfl⟩
    · by_cases hplus : c = '+'
      · subst hplus
        exact ⟨_, .plus, hsplit, hspaces, fun _ => rfl⟩
      · have hsign : sign (c :: t) = (false, c :: t) := by
          unfold sign
          split
          · next heq => exact absurd (List.cons.inj heq).1 hminus
          · next heq => exact absurd (List.cons.inj heq).1 hplus
          · rfl
        rw [hsign]
        exact ⟨_, .none, hsplit, hspaces, fun _ => rfl⟩

/-- The second check of `parse_number` never fires: the types agree. -/
theorem parse_number_eq (arg option : String) : parse_number arg option =
    match stoull arg with
    | .ok (parsed, consumed) =>
      if consumed = arg.length then .ok parsed
      else .error (.invalid_argument ("Invalid value for " ++ option ++ ": " ++ arg))
    | .error _ => .error (.invalid_argument ("Invalid value for " ++ option ++ ": " ++ arg)) := by
  unfold parse_number
  cases hstoull : stoull arg with
  | error e => rfl
  | ok r =>
    obtain ⟨parsed, consumed⟩ := r
    -- No value of a `std::size_t` exceeds the largest one.
    have hmax : ¬ BitVec.allOnes 64 < parsed := by
      rw [BitVec.lt_def, BitVec.toNat_allOnes]
      have := parsed.isLt
      omega
    by_cases hall : consumed = arg.length
    · simp only [ok_bind, hall, ne_eq, not_true_eq_false, if_false, if_true, hmax]
      rfl
    · simp only [ok_bind, hall, ne_eq, not_false_eq_true, if_true, if_false]
      rfl

/-- What `stoull` returns, in terms of what the scanner leaves. -/
theorem stoull_eq_ok {number_value : String} {n : Word} {consumed : Nat} {negative : Bool}
    {s : List Char} (hsign : sign (number_value.toList.dropWhile isspace) = (negative, s)) :
    stoull number_value = .ok (n, consumed) ↔ s.takeWhile Char.isDigit ≠ [] ∧
      decimal (s.takeWhile Char.isDigit) < 2 ^ 64 ∧
      n = (if negative then -BitVec.ofNat 64 (decimal (s.takeWhile Char.isDigit))
        else BitVec.ofNat 64 (decimal (s.takeWhile Char.isDigit))) ∧
      consumed = number_value.length - (s.dropWhile Char.isDigit).length := by
  unfold stoull
  rw [hsign]
  simp only [foldl_eq_decimal]
  -- It throws if there is no digit, or too large a value.
  by_cases hempty : s.takeWhile Char.isDigit = []
  · simp [hempty]
  · by_cases hlarge : 2 ^ 64 ≤ decimal (s.takeWhile Char.isDigit)
    · rw [if_neg hempty, if_pos hlarge]
      constructor
      · intro h
        cases h
      · intro h
        exact absurd h.2.1 (Nat.not_lt.mpr hlarge)
    · rw [if_neg hempty, if_neg hlarge, Except.ok.injEq, Prod.mk.injEq]
      constructor
      · intro h
        exact ⟨hempty, Nat.not_le.mp hlarge, h.1.symm, h.2.symm⟩
      · intro h
        exact ⟨h.2.2.1.symm, h.2.2.2.symm⟩

/-- A scan that leaves nothing has passed over digits only. -/
theorem isDigit_of_consumed {cs front s : List Char} (hsplit : cs = front ++ s)
    (hall : cs.length = cs.length - (s.dropWhile Char.isDigit).length) :
    ∀ c ∈ s, c.isDigit = true := by
  have hle : (s.dropWhile Char.isDigit).length ≤ cs.length := by
    have := List.length_dropWhile_le Char.isDigit s
    rw [hsplit, List.length_append]
    omega
  have hrest : s.dropWhile Char.isDigit = [] := List.length_eq_zero_iff.mp (by omega)
  exact List.dropWhile_eq_nil_iff.mp hrest

/-- **The scanner**: what `std::stoull` reads to the end. -/
theorem stoull_eq_ok_iff (number_value : String) (n : Word) :
    stoull number_value = .ok (n, number_value.length) ↔ IsSignedNumber number_value n := by
  constructor
  · intro h
    obtain ⟨spaces, sgn, hsplit, hspaces, happly⟩ := exists_sign number_value.toList
    generalize hsign : sign (number_value.toList.dropWhile isspace) = scanned at hsplit happly
    obtain ⟨negative, s⟩ := scanned
    obtain ⟨hempty, hfits, hn, hall⟩ := (stoull_eq_ok hsign).mp h
    have hfront : number_value.toList = (spaces ++ sgn.text) ++ s :=
      hsplit.trans (List.append_assoc _ _ _).symm
    have hdigits := isDigit_of_consumed hfront hall
    rw [List.takeWhile_eq_self_iff.mpr hdigits] at hempty hfits hn
    exact ⟨spaces, sgn, s, hsplit, hspaces, hempty, hdigits, hfits, hn.trans (happly _).symm⟩
  · intro h
    obtain ⟨spaces, sgn, digits, hsplit, hspaces, hne, hdigits, hfits, rfl⟩ := h
    have hsign := @sign_dropWhile spaces digits sgn hspaces hne hdigits
    rw [← hsplit] at hsign
    rw [stoull_eq_ok hsign, List.takeWhile_eq_self_iff.mpr hdigits,
      List.dropWhile_eq_nil_iff.mpr hdigits]
    refine ⟨hne, hfits, ?_, rfl⟩
    cases sgn <;> rfl

/-- **Numbers**: `parse_number` accepts what `std::stoull` reads to the end. -/
theorem parse_number_eq_ok_iff (arg option : String) (n : Word) :
    parse_number arg option = .ok n ↔ IsSignedNumber arg n := by
  rw [parse_number_eq, ← stoull_eq_ok_iff]
  cases hstoull : stoull arg with
  | error e => simp
  | ok r =>
    obtain ⟨parsed, consumed⟩ := r
    by_cases hall : consumed = arg.length
    · simp [hall]
    · simp [hall]

/-- Anything else is reported as an invalid argument. -/
theorem parse_number_error {arg option : String} {e : Stop}
    (h : parse_number arg option = .error e) : ∃ what, e = .invalid_argument what := by
  rw [parse_number_eq] at h
  split at h
  · split at h
    · cases h
    · cases h
      exact ⟨_, rfl⟩
  · cases h
    exact ⟨_, rfl⟩

/-! ## Grammar -/

/-- The options that take a value. -/
inductive OptionName where
  | nr
  | r
  | wr
  | f
  deriving DecidableEq

def OptionName.text : OptionName → String
  | .nr => "-nr"
  | .r => "-r"
  | .wr => "-wr"
  | .f => "-f"

theorem OptionName.text_injective {o o' : OptionName} (h : o.text = o'.text) : o = o' := by
  cases o <;> cases o' <;> first | rfl | exact absurd h (by decide)

/-- An option with its value. -/
structure Item where
  name : OptionName
  value : String

def Item.args (item : Item) : List String := [item.name.text, item.value]

theorem args_injective {items items' : List Item}
    (h : items.flatMap Item.args = items'.flatMap Item.args) : items = items' := by
  induction items generalizing items' with
  | nil =>
    cases items' with
    | nil => rfl
    | cons item' items' => cases h
  | cons item items ih =>
    cases items' with
    | nil => cases h
    | cons item' items' =>
      -- The list splits after two arguments, whatever the items are.
      simp only [List.flatMap_cons, Item.args, List.cons_append, List.nil_append,
        List.cons.injEq] at h
      obtain ⟨hname, hvalue, hitems⟩ := h
      have hitem : item = item' := by
        cases item
        cases item'
        rw [Item.mk.injEq]
        exact ⟨OptionName.text_injective hname, hvalue⟩
      rw [hitem, ih hitems]

/-- The value that the last item with this option has. -/
def lastValue (name : OptionName) (items : List Item) : Option String :=
  ((items.filter (·.name = name)).getLast?).map Item.value

@[simp] theorem lastValue_nil (name : OptionName) : lastValue name [] = none := rfl

theorem lastValue_cons_self (name : OptionName) (value : String) (items : List Item) :
    lastValue name (⟨name, value⟩ :: items) = some ((lastValue name items).getD value) := by
  unfold lastValue
  rw [List.filter_cons_of_pos (by simp), List.getLast?_cons]
  -- A later item with the same name wins over the one in front.
  cases (items.filter (·.name = name)).getLast? <;> rfl

@[simp] theorem lastValue_cons_ne {name other : OptionName} (hne : other ≠ name) (value : String)
    (items : List Item) : lastValue name (⟨other, value⟩ :: items) = lastValue name items := by
  unfold lastValue
  rw [List.filter_cons_of_neg (by simpa using hne)]

section
/- Which strings are numbers, and what they denote. -/
variable (reads : String → Word → Prop)

/-- A path can be any string, the other values are numbers. -/
def Item.Reads (item : Item) : Prop := item.name = .f ∨ ∃ n, reads item.value n

/-- The last item with this option gives the number, the default if there is
    none. -/
def LastNumber (name : OptionName) (default : Word) (items : List Item) (n : Word) : Prop :=
  match lastValue name items with
  | none => n = default
  | some value => reads value n

/-- The configuration that a list of items makes out of `start`. -/
@[mk_iff]
structure ConfigFrom (start : Config) (items : List Item) (config : Config) : Prop where
  rows : LastNumber reads .nr start.rows items config.rows
  negative_queries : LastNumber reads .nr start.negative_queries items config.negative_queries
  hot_runs : LastNumber reads .r start.hot_runs items config.hot_runs
  warmup_runs : LastNumber reads .wr start.warmup_runs items config.warmup_runs
  csv_path : config.csv_path = (lastValue .f items).getD start.csv_path

variable {reads}

theorem lastNumber_cons_self {name : OptionName} {value : String} {n : Word}
    (hn : reads value n) (hunique : ∀ m, reads value m → m = n) (default : Word)
    (items : List Item) (m : Word) :
    LastNumber reads name default (⟨name, value⟩ :: items) m ↔
      LastNumber reads name n items m := by
  unfold LastNumber
  rw [lastValue_cons_self]
  cases lastValue name items with
  | none =>
    constructor
    · exact hunique m
    · intro hm
      rw [hm]
      exact hn
  | some last => exact Iff.rfl

theorem lastNumber_cons_ne {name other : OptionName} (hne : other ≠ name) (value : String)
    (default : Word) (items : List Item) (m : Word) :
    LastNumber reads name default (⟨other, value⟩ :: items) m ↔
      LastNumber reads name default items m := by
  unfold LastNumber
  rw [lastValue_cons_ne hne]

theorem configFrom_nil (start config : Config) :
    ConfigFrom reads start [] config ↔ config = start := by
  constructor
  · intro h
    obtain ⟨hrows, hnegative, hhot, hwarmup, hpath⟩ := h
    cases config
    cases start
    simp only [LastNumber, lastValue_nil, Option.getD_none] at hrows hnegative hhot hwarmup hpath
    rw [hrows, hnegative, hhot, hwarmup, hpath]
  · intro h
    rw [h]
    exact ⟨rfl, rfl, rfl, rfl, rfl⟩

end

theorem IsSignedNumber.unique {s : String} {n m : Word} (hn : IsSignedNumber s n)
    (hm : IsSignedNumber s m) : m = n := by
  rw [← parse_number_eq_ok_iff s ""] at hn hm
  rw [hn] at hm
  exact (Except.ok.inj hm).symm

/-- **Step**: an option of the loop is an item at the front of the list. -/
theorem SetsOption.exists_item {cur_arg value : String} {start next : Config}
    (h : SetsOption cur_arg value start next) :
    ∃ name : OptionName, cur_arg = name.text ∧ Item.Reads IsSignedNumber ⟨name, value⟩ ∧
      ∀ items config, ConfigFrom IsSignedNumber start (⟨name, value⟩ :: items) config ↔
        ConfigFrom IsSignedNumber next items config := by
  cases h with
  | rows hparse =>
    have hn := (parse_number_eq_ok_iff _ _ _).mp hparse
    refine ⟨.nr, rfl, .inr ⟨_, hn⟩, fun items config => ?_⟩
    simp [configFrom_iff, lastNumber_cons_self hn (fun _ => hn.unique), lastNumber_cons_ne]
  | hot_runs hparse =>
    have hn := (parse_number_eq_ok_iff _ _ _).mp hparse
    refine ⟨.r, rfl, .inr ⟨_, hn⟩, fun items config => ?_⟩
    simp [configFrom_iff, lastNumber_cons_self hn (fun _ => hn.unique), lastNumber_cons_ne]
  | warmup_runs hparse =>
    have hn := (parse_number_eq_ok_iff _ _ _).mp hparse
    refine ⟨.wr, rfl, .inr ⟨_, hn⟩, fun items config => ?_⟩
    simp [configFrom_iff, lastNumber_cons_self hn (fun _ => hn.unique), lastNumber_cons_ne]
  | csv_path =>
    refine ⟨.f, rfl, .inl rfl, fun items config => ?_⟩
    simp [configFrom_iff, lastNumber_cons_ne, lastValue_cons_self]

/-- The loop takes every item whose value it can read. -/
theorem Item.Reads.setsOption {item : Item} (h : item.Reads IsSignedNumber) (start : Config) :
    ∃ next, SetsOption item.name.text item.value start next := by
  obtain ⟨name, value⟩ := item
  rcases h with hpath | ⟨n, hn⟩
  · simp only at hpath
    subst hpath
    exact ⟨_, .csv_path⟩
  · cases name with
    | nr => exact ⟨_, .rows ((parse_number_eq_ok_iff _ _ _).mpr hn)⟩
    | r => exact ⟨_, .hot_runs ((parse_number_eq_ok_iff _ _ _).mpr hn)⟩
    | wr => exact ⟨_, .warmup_runs ((parse_number_eq_ok_iff _ _ _).mpr hn)⟩
    | f => exact ⟨_, .csv_path⟩

/-- **Run**: the loop accepts the lists of items whose values it can read. -/
theorem accepts_iff {start config : Config} {args : List String} :
    Accepts start args config ↔ ∃ items : List Item, args = items.flatMap Item.args ∧
      (∀ item ∈ items, item.Reads IsSignedNumber) ∧
        ConfigFrom IsSignedNumber start items config := by
  constructor
  · intro h
    induction h with
    | done config =>
      refine ⟨[], rfl, by simp, ?_⟩
      rw [configFrom_nil]
    | option hset _ ih =>
      obtain ⟨items, hargs, hreads, hconfig⟩ := ih
      -- The option that was read is the item at the front.
      obtain ⟨name, hname, hitem, hstep⟩ := hset.exists_item
      refine ⟨⟨name, _⟩ :: items, ?_, ?_, (hstep items _).mpr hconfig⟩
      · rw [hargs, hname]
        rfl
      · intro item hmem
        rcases List.mem_cons.mp hmem with heq | htail
        · rw [heq]
          exact hitem
        · exact hreads item htail
  · intro h
    obtain ⟨items, hargs, hreads, hconfig⟩ := h
    subst hargs
    induction items generalizing start with
    | nil =>
      rw [configFrom_nil] at hconfig
      rw [hconfig]
      exact .done start
    | cons item items ih =>
      obtain ⟨next, hset⟩ := (hreads item (by simp)).setsOption start
      obtain ⟨name, hname, _, hstep⟩ := hset.exists_item
      have hitem : item = ⟨name, item.value⟩ := by
        rw [← OptionName.text_injective hname]
      -- The loop has read the first item; the rest starts from what it sets.
      rw [hitem, hstep] at hconfig
      exact .option hset (ih (fun other hother => hreads other (by simp [hother])) hconfig)

theorem Accepts.loop_eq {start config : Config} {args : List String}
    (h : Accepts start args config) : parse_args.loop start args = .ok config := by
  induction h with
  | done config => rfl
  | option hset _ ih =>
    cases hset with
    | rows hn | hot_runs hn | warmup_runs hn =>
      simp only [parse_args.loop, hn, ok_bind, String.reduceEq, if_true, if_false]
      exact ih
    | csv_path =>
      simp only [parse_args.loop, String.reduceEq, if_true, if_false]
      exact ih

/-- The defaults of the README; no path disables the CSV file. -/
def documentedDefaults : Config where
  rows := 720721
  negative_queries := 720721
  hot_runs := 10
  warmup_runs := 1
  csv_path := ""

/-- The configuration that a correct command line describes. -/
structure Describes (reads : String → Word → Prop) (items : List Item) (config : Config) :
    Prop where
  numbers : ∀ item ∈ items, item.Reads reads
  last_wins : ConfigFrom reads documentedDefaults items config
  rows : config.rows ≠ 0
  hot_runs : config.hot_runs ≠ 0

/-- **What `parse_args` returns**: the documented grammar, with the numbers
    that `std::stoull` reads. -/
theorem parse_args_eq_ok_iff {args : List String} {config : Config} :
    parse_args args = .ok config ↔
      ∃ items : List Item, args = items.flatMap Item.args ∧
        Describes IsSignedNumber items config := by
  rw [parse_args_eq_ok]
  constructor
  · intro h
    obtain ⟨hloop, hrows, hruns⟩ := h
    obtain ⟨items, hargs, hreads, hconfig⟩ := accepts_iff.mp (parse_args.accepts_of_loop hloop)
    exact ⟨items, hargs, hreads, hconfig, hrows, hruns⟩
  · intro h
    obtain ⟨items, hargs, hreads, hconfig, hrows, hruns⟩ := h
    have hloop := (accepts_iff.mpr ⟨items, hargs, hreads, hconfig⟩).loop_eq
    exact ⟨hloop, hrows, hruns⟩

theorem parse_args.loop_error {start : Config} {args : List String} {e : Stop}
    (h : parse_args.loop start args = .error e) (hh : "-h" ∉ args) (hhelp : "--help" ∉ args) :
    ∃ what, e = .invalid_argument what := by
  fun_induction parse_args.loop start args with
  | case1 => cases h
  | case2 | case4 | case6 | case8 | case11 =>
    cases h
    exact ⟨_, rfl⟩
  | case3 _ value rest ih | case5 _ value rest _ ih | case7 _ value rest _ _ ih =>
    -- Either the number is refused, or something behind it.
    rcases error_of_bind_error h with hparse | ⟨n, _, hrest⟩
    · exact parse_number_error hparse
    · simp only [List.mem_cons, not_or] at hh hhelp
      exact ih n hrest hh.2.2 hhelp.2.2
  | case9 _ value rest _ _ _ ih =>
    simp only [List.mem_cons, not_or] at hh hhelp
    exact ih h hh.2.2 hhelp.2.2
  | case10 _ cur_arg rest _ _ _ _ hask =>
    simp only [List.mem_cons, not_or] at hh hhelp
    -- Help is excluded by the hypotheses.
    rcases hask with hask | hask
    · exact absurd hask.symm hhelp.1
    · exact absurd hask.symm hh.1

/-- Without a request for help, a command line that is not accepted is an
    invalid argument. -/
theorem parse_args_error {args : List String} {e : Stop} (h : parse_args args = .error e)
    (hh : "-h" ∉ args) (hhelp : "--help" ∉ args) : ∃ what, e = .invalid_argument what := by
  rcases error_of_bind_error h with hloop | ⟨config, _, hchecks⟩
  · exact parse_args.loop_error hloop hh hhelp
  · split at hchecks
    · cases hchecks
      exact ⟨_, rfl⟩
    · split at hchecks
      · cases hchecks
        exact ⟨_, rfl⟩
      · cases hchecks

/-! ## The documented grammar -/

theorem exists_of_lastValue {name : OptionName} {items : List Item} {value : String}
    (h : lastValue name items = some value) : ⟨name, value⟩ ∈ items := by
  unfold lastValue at h
  obtain ⟨item, hlast, hvalue⟩ := Option.map_eq_some_iff.mp h
  have hmem := List.mem_filter.mp (List.mem_of_getLast? hlast)
  have hname : item.name = name := by simpa using hmem.2
  rw [← hname, ← hvalue]
  exact hmem.1

theorem LastNumber.unique {name : OptionName} {default : Word} {items : List Item} {n m : Word}
    (hn : LastNumber IsSignedNumber name default items n)
    (hm : LastNumber IsSignedNumber name default items m) : m = n := by
  unfold LastNumber at hn hm
  cases hlast : lastValue name items with
  | none =>
    rw [hlast] at hn hm
    rw [hn, hm]
  | some value =>
    rw [hlast] at hn hm
    exact hn.unique hm

/-- Where every value is a bare number, reading signs makes no difference. -/
theorem lastNumber_iff {items : List Item} (hbare : ∀ item ∈ items, item.Reads IsNumber)
    {name : OptionName} (hname : name ≠ .f) {default n : Word} :
    LastNumber IsNumber name default items n ↔ LastNumber IsSignedNumber name default items n := by
  unfold LastNumber
  cases hlast : lastValue name items with
  | none => exact Iff.rfl
  | some value =>
    constructor
    · exact IsNumber.isSignedNumber
    · intro hn
      rcases hbare _ (exists_of_lastValue hlast) with hpath | ⟨m, hm⟩
      · exact absurd hpath hname
      · -- A bare number has one value, also for the reader that allows a sign.
        rw [← hn.unique hm.isSignedNumber]
        exact hm

theorem configFrom_iff_of_bare {items : List Item}
    (hbare : ∀ item ∈ items, item.Reads IsNumber) {start config : Config} :
    ConfigFrom IsNumber start items config ↔ ConfigFrom IsSignedNumber start items config := by
  have hnr : OptionName.nr ≠ .f := by decide
  have hr : OptionName.r ≠ .f := by decide
  have hwr : OptionName.wr ≠ .f := by decide
  simp only [configFrom_iff, lastNumber_iff hbare hnr, lastNumber_iff hbare hr,
    lastNumber_iff hbare hwr]

theorem Item.Reads.signed {item : Item} (h : item.Reads IsNumber) : item.Reads IsSignedNumber := by
  rcases h with hpath | ⟨n, hn⟩
  · exact .inl hpath
  · exact .inr ⟨n, hn.isSignedNumber⟩

theorem describes_isNumber_iff {items : List Item} {config : Config} :
    Describes IsNumber items config ↔
      (∀ item ∈ items, item.Reads IsNumber) ∧ Describes IsSignedNumber items config := by
  constructor
  · intro h
    obtain ⟨hbare, hconfig, hrows, hruns⟩ := h
    exact ⟨hbare, fun item hmem => (hbare item hmem).signed,
      (configFrom_iff_of_bare hbare).mp hconfig, hrows, hruns⟩
  · intro h
    obtain ⟨hbare, _, hconfig, hrows, hruns⟩ := h
    exact ⟨hbare, (configFrom_iff_of_bare hbare).mpr hconfig, hrows, hruns⟩

/-- Every list of items whose values can be read makes a configuration. -/
theorem exists_configFrom {items : List Item}
    (hreads : ∀ item ∈ items, item.Reads IsSignedNumber) (start : Config) :
    ∃ config, ConfigFrom IsSignedNumber start items config := by
  induction items generalizing start with
  | nil => exact ⟨start, (configFrom_nil start start).mpr rfl⟩
  | cons item items ih =>
    obtain ⟨next, hset⟩ := (hreads item (by simp)).setsOption start
    obtain ⟨config, hconfig⟩ := ih (fun other hother => hreads other (by simp [hother])) next
    obtain ⟨name, hname, _, hstep⟩ := hset.exists_item
    rw [← OptionName.text_injective hname] at hstep
    exact ⟨config, (hstep items config).mpr hconfig⟩

/-- **The documented grammar** for one command line: it is parsed into the
    configuration that it describes, and rejected if it describes none. -/
structure FollowsGrammar (args : List String) : Prop where
  returns_iff : ∀ config, parse_args args = .ok config ↔
    ∃ items : List Item, args = items.flatMap Item.args ∧ Describes IsNumber items config
  otherwise : (¬ ∃ config, ∃ items : List Item, args = items.flatMap Item.args ∧
    Describes IsNumber items config) → ∃ what, parse_args args = .error (.invalid_argument what)

/-- A command line that is correct but for a number with a sign or with white
    space in front; the rows and the hot runs are not zero. -/
def SignedOrSpaced (args : List String) : Prop :=
  ∃ items : List Item, args = items.flatMap Item.args ∧
    (∀ item ∈ items, item.Reads IsSignedNumber) ∧ (∃ item ∈ items, ¬ item.Reads IsNumber) ∧
      ¬ LastNumber IsSignedNumber .nr documentedDefaults.rows items 0 ∧
        ¬ LastNumber IsSignedNumber .r documentedDefaults.hot_runs items 0

/-- Where the grammar is followed, what is accepted has bare numbers only. -/
theorem FollowsGrammar.bare {args : List String} {config : Config} (h : FollowsGrammar args)
    (hok : parse_args args = .ok config) {items : List Item}
    (hargs : args = items.flatMap Item.args) : ∀ item ∈ items, item.Reads IsNumber := by
  obtain ⟨items', hargs', hdescribes⟩ := (h.returns_iff config).mp hok
  rw [args_injective (hargs.symm.trans hargs')]
  exact hdescribes.numbers

/-- A line whose numbers can be read is accepted, also with signs. -/
theorem exists_parse_args_eq_ok {items : List Item}
    (hreads : ∀ item ∈ items, item.Reads IsSignedNumber)
    (hrows : ¬ LastNumber IsSignedNumber .nr documentedDefaults.rows items 0)
    (hruns : ¬ LastNumber IsSignedNumber .r documentedDefaults.hot_runs items 0) :
    ∃ config, parse_args (items.flatMap Item.args) = .ok config := by
  obtain ⟨config, hconfig⟩ := exists_configFrom hreads documentedDefaults
  refine ⟨config, ?_⟩
  rw [parse_args_eq_ok_iff]
  refine ⟨items, rfl, hreads, hconfig, ?_, ?_⟩
  · intro hzero
    apply hrows
    rw [← hzero]
    exact hconfig.rows
  · intro hzero
    apply hruns
    rw [← hzero]
    exact hconfig.hot_runs

/-- Beyond the signed and spaced lines, an accepted one has bare numbers. -/
theorem bare_of_not_signedOrSpaced {items : List Item} {config : Config}
    (hsigned : ¬ SignedOrSpaced (items.flatMap Item.args))
    (hdescribes : Describes IsSignedNumber items config) :
    ∀ item ∈ items, item.Reads IsNumber := by
  intro item hmem
  by_contra hnot
  refine hsigned ⟨items, rfl, hdescribes.numbers, ⟨item, hmem, hnot⟩, ?_, ?_⟩
  · intro hzero
    exact hdescribes.rows (hzero.unique hdescribes.last_wins.rows)
  · intro hzero
    exact hdescribes.hot_runs (hzero.unique hdescribes.last_wins.hot_runs)

/-- **Command line**: the grammar is followed but for the numbers that are
    written with a sign or with white space in front. -/
theorem follows_grammar_iff (args : List String) (hh : "-h" ∉ args) (hhelp : "--help" ∉ args) :
    FollowsGrammar args ↔ ¬ SignedOrSpaced args := by
  constructor
  · intro hfollows hsigned
    obtain ⟨items, rfl, hreads, ⟨item, hmem, hnot⟩, hrows, hruns⟩ := hsigned
    -- The line is accepted, but the grammar has digits only.
    obtain ⟨config, hok⟩ := exists_parse_args_eq_ok hreads hrows hruns
    exact hnot (hfollows.bare hok rfl item hmem)
  · intro hsigned
    have hreturns : ∀ config, parse_args args = .ok config ↔
        ∃ items : List Item, args = items.flatMap Item.args ∧ Describes IsNumber items config := by
      intro config
      rw [parse_args_eq_ok_iff]
      constructor
      · intro h
        obtain ⟨items, rfl, hdescribes⟩ := h
        exact ⟨items, rfl, describes_isNumber_iff.mpr
          ⟨bare_of_not_signedOrSpaced hsigned hdescribes, hdescribes⟩⟩
      · intro h
        obtain ⟨items, hargs, hdescribes⟩ := h
        exact ⟨items, hargs, (describes_isNumber_iff.mp hdescribes).2⟩
    refine ⟨hreturns, ?_⟩
    intro hnone
    cases hparse : parse_args args with
    | ok config => exact absurd ⟨config, (hreturns config).mp hparse⟩ hnone
    | error e =>
      obtain ⟨what, rfl⟩ := parse_args_error hparse hh hhelp
      exact ⟨what, rfl⟩

theorem follows_grammar_iff_bare :
    ("-h" ∉ ["-nr", "17"] ∧ "--help" ∉ ["-nr", "17"]) ∧
      (FollowsGrammar ["-nr", "17"] ↔ ¬ SignedOrSpaced ["-nr", "17"]) :=
  ⟨by decide, follows_grammar_iff ["-nr", "17"] (by decide) (by decide)⟩

/-- A negative count is accepted: it is negated modulo `2 ^ 64`. -/
theorem negative_count_accepted :
    parse_args ["-nr", "-1"] = .ok { rows := -1, negative_queries := -1 } ∧
      (-1 : Word).toNat = 2 ^ 64 - 1 ∧ ¬ FollowsGrammar ["-nr", "-1"] := by
  have hok : parse_args ["-nr", "-1"] =
      .ok { rows := -1, negative_queries := -1 } := by decide
  refine ⟨hok, by decide, ?_⟩
  intro hfollows
  have hbare : ∀ item ∈ [Item.mk .nr "-1"], item.Reads IsNumber := hfollows.bare hok rfl
  rcases hbare ⟨.nr, "-1"⟩ (by simp) with hpath | ⟨n, hn⟩
  · cases hpath
  · have hminus := hn.digits '-' (by decide)
    revert hminus
    decide

end BloomFilters
