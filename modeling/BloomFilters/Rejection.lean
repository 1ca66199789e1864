import BloomFilters.CommandLine

/-! # Rejected command lines

    Which exception `parse_args` of `src/bench.cpp` throws, for every argument
    list that it does not accept. The loop stops at the first argument that
    offends; what stands behind it is never looked at. A count of zero is only
    noticed when all arguments have been read.
-/

open Checked

namespace BloomFilters

/-! ## Offending arguments -/

/-- The exception that `parse_number` turns everything else into. -/
theorem parse_number_eq_error_iff (arg option : String) (e : Stop) :
    parse_number arg option = .error e ↔ (¬ ∃ n, IsSignedNumber arg n) ∧
      e = .invalid_argument ("Invalid value for " ++ option ++ ": " ++ arg) := by
  have hread : (∃ n, IsSignedNumber arg n) ↔ ∃ n, parse_number arg option = .ok n := by
    simp only [parse_number_eq_ok_iff]
  rw [hread, parse_number_eq]
  cases hstoull : stoull arg with
  | error e' => simp [eq_comm]
  | ok r =>
    obtain ⟨parsed, consumed⟩ := r
    by_cases hall : consumed = arg.length
    · simp [hall]
    · simp [hall, eq_comm]

/-- The rest of the arguments starts with one that the loop does not take. -/
inductive Offends : List String → Stop → Prop where
  | missing (name : OptionName) :
      Offends [name.text] (.invalid_argument ("Missing value for " ++ name.text))
  | unreadable {name : OptionName} (hname : name ≠ .f) {value : String}
      (hvalue : ¬ ∃ n, IsSignedNumber value n) (rest : List String) :
      Offends (name.text :: value :: rest)
        (.invalid_argument ("Invalid value for " ++ name.text ++ ": " ++ value))
  | help {arg : String} (harg : arg = "--help" ∨ arg = "-h") (rest : List String) :
      Offends (arg :: rest) (.exit 0)
  | unknown {arg : String} (hoption : ∀ name : OptionName, arg ≠ name.text)
      (hhelp : ¬ (arg = "--help" ∨ arg = "-h")) (rest : List String) :
      Offends (arg :: rest) (.invalid_argument ("Unknown option: " ++ arg))

/-- Items that can be read, and behind them an argument that offends. -/
def StopsAt (args : List String) (e : Stop) : Prop :=
  ∃ (items : List Item) (rest : List String), args = items.flatMap Item.args ++ rest ∧
    (∀ item ∈ items, item.Reads IsSignedNumber) ∧ Offends rest e

theorem Offends.stopsAt {args : List String} {e : Stop} (h : Offends args e) : StopsAt args e :=
  ⟨[], args, rfl, by simp, h⟩

theorem StopsAt.cons {item : Item} {args : List String} {e : Stop} (h : StopsAt args e)
    (hitem : item.Reads IsSignedNumber) : StopsAt (item.name.text :: item.value :: args) e := by
  obtain ⟨items, rest, rfl, hreads, hoffends⟩ := h
  refine ⟨item :: items, rest, rfl, fun other hother => ?_, hoffends⟩
  rcases List.mem_cons.mp hother with rfl | htail
  · exact hitem
  · exact hreads other htail

/-- A number is refused, or something behind it. -/
theorem stopsAt_of_bind (name : OptionName) (hname : name ≠ .f) {value : String}
    {rest : List String} {e : Stop} {k : Word → Except Stop Config}
    (h : (parse_number value name.text >>= k) = .error e)
    (hrest : ∀ n, k n = .error e → StopsAt rest e) :
    StopsAt (name.text :: value :: rest) e := by
  rcases error_of_bind_error h with hparse | ⟨n, hn, hk⟩
  · obtain ⟨hvalue, rfl⟩ := (parse_number_eq_error_iff _ _ _).mp hparse
    exact (Offends.unreadable hname hvalue rest).stopsAt
  · have hitem : Item.Reads IsSignedNumber ⟨name, value⟩ :=
      .inr ⟨n, (parse_number_eq_ok_iff _ _ _).mp hn⟩
    exact (hrest n hk).cons hitem

/-! ## The loop -/

theorem stopsAt_of_loop {start : Config} {args : List String} {e : Stop}
    (h : parse_args.loop start args = .error e) : StopsAt args e := by
  fun_induction parse_args.loop start args with
  | case1 => cases h
  | case2 =>
    cases h
    exact (Offends.missing .nr).stopsAt
  | case4 =>
    cases h
    exact (Offends.missing .r).stopsAt
  | case6 =>
    cases h
    exact (Offends.missing .wr).stopsAt
  | case8 =>
    cases h
    exact (Offends.missing .f).stopsAt
  | case3 _ value rest ih => exact stopsAt_of_bind .nr (by decide) h ih
  | case5 _ value rest _ ih => exact stopsAt_of_bind .r (by decide) h ih
  | case7 _ value rest _ _ ih => exact stopsAt_of_bind .wr (by decide) h ih
  | case9 _ value rest _ _ _ ih =>
    have hitem : Item.Reads IsSignedNumber ⟨.f, value⟩ := .inl rfl
    exact (ih h).cons hitem
  | case10 _ cur_arg rest _ _ _ _ hask =>
    cases h
    exact (Offends.help hask rest).stopsAt
  | case11 _ cur_arg rest hnr hr hwr hf hask =>
    cases h
    refine (Offends.unknown (fun name => ?_) hask rest).stopsAt
    cases name <;> assumption

/-- An item that can be read is taken off the front. -/
theorem Item.Reads.loop_eq {item : Item} (h : item.Reads IsSignedNumber) (start : Config) :
    ∃ next, ∀ rest, parse_args.loop start (item.name.text :: item.value :: rest) =
      parse_args.loop next rest := by
  obtain ⟨next, hset⟩ := h.setsOption start
  refine ⟨next, fun rest => ?_⟩
  generalize item.name.text = text at hset
  cases hset with
  | rows hn | hot_runs hn | warmup_runs hn =>
    simp only [parse_args.loop, hn, ok_bind, String.reduceEq, if_true, if_false]
  | csv_path => simp only [parse_args.loop, String.reduceEq, if_true, if_false]

theorem Offends.loop_eq {args : List String} {e : Stop} (h : Offends args e) (start : Config) :
    parse_args.loop start args = .error e := by
  cases h with
  | missing name => cases name <;> rfl
  | @unreadable name hname value hvalue rest =>
    have hparse := (parse_number_eq_error_iff value name.text _).mpr ⟨hvalue, rfl⟩
    cases name with
    | nr =>
      simp only [OptionName.text] at hparse ⊢
      simp only [parse_args.loop, hparse, String.reduceEq, if_true, if_false]
      rfl
    | r =>
      simp only [OptionName.text] at hparse ⊢
      simp only [parse_args.loop, hparse, String.reduceEq, if_true, if_false]
      rfl
    | wr =>
      simp only [OptionName.text] at hparse ⊢
      simp only [parse_args.loop, hparse, String.reduceEq, if_true, if_false]
      rfl
    | f => exact absurd rfl hname
  | @help arg harg rest =>
    rcases harg with rfl | rfl
    · unfold parse_args.loop
      rfl
    · unfold parse_args.loop
      rfl
  | @unknown arg hoption hhelp rest =>
    have hnr := hoption .nr
    have hr := hoption .r
    have hwr := hoption .wr
    have hf := hoption .f
    simp only [OptionName.text] at hnr hr hwr hf
    unfold parse_args.loop
    rw [if_neg hnr, if_neg hr, if_neg hwr, if_neg hf, if_neg hhelp]

/-- **Loop**: the first offending argument decides. -/
theorem loop_eq_error_iff {start : Config} {args : List String} {e : Stop} :
    parse_args.loop start args = .error e ↔ StopsAt args e := by
  constructor
  · exact stopsAt_of_loop
  · rintro ⟨items, rest, rfl, hreads, hoffends⟩
    induction items generalizing start with
    | nil => exact hoffends.loop_eq start
    | cons item items ih =>
      obtain ⟨next, hnext⟩ := (hreads item (by simp)).loop_eq start
      exact (hnext _).trans (ih fun other hother => hreads other (by simp [hother]))

/-! ## The outcome -/

/-- All arguments are read, and then one of the two counts is zero. -/
def CountsZero (args : List String) : Prop :=
  ∃ (items : List Item) (config : Config), args = items.flatMap Item.args ∧
    (∀ item ∈ items, item.Reads IsSignedNumber) ∧
    ConfigFrom IsSignedNumber documentedDefaults items config ∧
    (config.rows = 0 ∨ config.hot_runs = 0)

/-- The checks behind the loop; both have the text of `-r`. -/
theorem checks_eq_error_iff (config : Config) (e : Stop) :
    (if config.rows = 0 then throw (.invalid_argument "-r cannot be zero.\n")
      else if config.hot_runs = 0 then throw (.invalid_argument "-r cannot be zero.\n")
      else return config : Except Stop Config) = .error e ↔
        (config.rows = 0 ∨ config.hot_runs = 0) ∧
          e = .invalid_argument "-r cannot be zero.\n" := by
  by_cases hrows : config.rows = 0
  · rw [if_pos hrows]
    exact ⟨fun h => ⟨.inl hrows, (Except.error.inj h).symm⟩, fun h => by rw [h.2]; rfl⟩
  · by_cases hruns : config.hot_runs = 0
    · rw [if_neg hrows, if_pos hruns]
      exact ⟨fun h => ⟨.inr hruns, (Except.error.inj h).symm⟩, fun h => by rw [h.2]; rfl⟩
    · rw [if_neg hrows, if_neg hruns]
      exact ⟨fun h => (by cases h), fun h => absurd h.1 (not_or.mpr ⟨hrows, hruns⟩)⟩

/-- **Rejection**: which command lines `parse_args` rejects, and how. Both zero
    counts get the text of `-r`. -/
theorem parse_args_eq_error_iff (args : List String) (e : Stop) :
    parse_args args = .error e ↔
      StopsAt args e ∨ CountsZero args ∧ e = .invalid_argument "-r cannot be zero.\n" := by
  cases hloop : parse_args.loop documentedDefaults args with
  | error e' =>
    have hstops : ∀ e, StopsAt args e ↔ e' = e := by
      intro e
      rw [← loop_eq_error_iff, hloop, Except.error.injEq]
    have hnot : ¬ CountsZero args := by
      rintro ⟨items, config, hargs, hreads, hconfig, -⟩
      have hok := (accepts_iff.mpr ⟨items, hargs, hreads, hconfig⟩).loop_eq
      rw [hloop] at hok
      cases hok
    have hparse : parse_args args = .error e' := by
      unfold parse_args
      rw [show parse_args.loop {} args = .error e' from hloop]
      rfl
    rw [hparse, hstops, Except.error.injEq]
    exact ⟨.inl, fun h => h.resolve_right fun hzero => hnot hzero.1⟩
  | ok config =>
    have hstops : ¬ StopsAt args e := by
      rw [← loop_eq_error_iff, hloop]
      intro h
      cases h
    have hzero : CountsZero args ↔ config.rows = 0 ∨ config.hot_runs = 0 := by
      constructor
      · rintro ⟨items, config', hargs, hreads, hconfig, hcounts⟩
        have hok := (accepts_iff.mpr ⟨items, hargs, hreads, hconfig⟩).loop_eq
        rw [hloop] at hok
        rw [Except.ok.inj hok]
        exact hcounts
      · intro hcounts
        obtain ⟨items, hargs, hreads, hconfig⟩ :=
          accepts_iff.mp (parse_args.accepts_of_loop hloop)
        exact ⟨items, config, hargs, hreads, hconfig, hcounts⟩
    have hparse : parse_args args = .error e ↔ (config.rows = 0 ∨ config.hot_runs = 0) ∧
        e = .invalid_argument "-r cannot be zero.\n" := by
      unfold parse_args
      rw [show parse_args.loop {} args = .ok config from hloop, ok_bind, checks_eq_error_iff]
    rw [hparse, hzero]
    exact ⟨.inr, fun h => h.resolve_left hstops⟩

/-- What stands behind the first argument that offends is never looked at. -/
example : parse_args ["-r", "0", "-x", "-h"] =
    .error (.invalid_argument "Unknown option: -x") := by decide

end BloomFilters
