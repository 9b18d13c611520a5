import Mathlib.Data.List.Induction
import Mathlib.Tactic.Common
import TapeLang.Cli.Options

/-!
# What a command line asks for

`Options.readArgs` goes through the arguments, two at a time where a `--mode` takes the one behind it,
and changes the options on the way. What comes of it can be said without following it. An argument
means what it does by itself and by the one directly before it (`Placed`), and has an effect of its own
on the options (`Placed.effect`). A command line that is not misused is read by letting the effects
follow each other (`Options.readArgs_eq`). That two arguments are read at a time makes no difference,
since the name of a mode is no flag.

A flag is never taken back, and a mode or a file that is named later replaces the earlier one. So the
options are known from which arguments there are and which of them is the last of its kind:
`Options.ofArgs_grammar`.
-/

namespace TapeLang

namespace Cli

variable {arg flag : String} {args rest : List String} {before : Option String} {o o' : Options}

/-! ## Flags and modes -/

namespace Flag

lemma ofArg?_eq_some_iff {f : Flag} : ofArg? arg = some f ↔ arg ∈ f.spellings := by
  constructor
  · intro h
    unfold ofArg? at h
    simpa using List.find?_some h
  · intro h
    -- no two spellings are the same
    cases f <;> simp only [spellings, List.mem_cons, List.not_mem_nil, or_false] at h <;>
      rcases h with rfl | rfl <;> rfl

lemma ofArg?_eq_none_iff : ofArg? arg = none ↔ ∀ f : Flag, arg ∉ f.spellings := by
  rw [Option.eq_none_iff_forall_ne_some]
  exact forall_congr' fun f => not_congr ofArg?_eq_some_iff

lemma isDashed_of_mem_spellings {f : Flag} (h : arg ∈ f.spellings) : isDashed arg = true := by
  cases f <;> simp only [spellings, List.mem_cons, List.not_mem_nil, or_false] at h <;>
    rcases h with rfl | rfl <;> rfl

end Flag

namespace Mode

lemma ofName?_eq_some_iff {m : Mode} : ofName? arg = some m ↔ arg = m.name := by
  constructor
  · intro h
    unfold ofName? at h
    simpa [eq_comm] using List.find?_some h
  · rintro rfl
    cases m <;> rfl

@[simp] lemma ofName?_name (m : Mode) : ofName? m.name = some m :=
  ofName?_eq_some_iff.mpr rfl

@[simp] lemma isDashed_name (m : Mode) : isDashed m.name = false := by
  cases m <;> rfl

lemma name_notMem_spellings (m : Mode) (f : Flag) : m.name ∉ f.spellings := by
  intro h
  cases m.isDashed_name.symm.trans (Flag.isDashed_of_mem_spellings h)

end Mode

/-! ## Reading -/

namespace Options

/-- The options when an argument has been read by itself. -/
def take (o : Options) (arg : String) : Options :=
  match Flag.ofArg? arg with
  | some .help => { o with help := true }
  | some .time => { o with timed := true }
  | some .mode => o
  | none => if isDashed arg then o else { o with file := some arg }

lemma help_take : (o.take arg).help = true ↔ o.help = true ∨ arg ∈ Flag.help.spellings := by
  rw [← Flag.ofArg?_eq_some_iff]
  unfold take
  repeat' split
  all_goals simp_all

lemma timed_take : (o.take arg).timed = true ↔ o.timed = true ∨ arg ∈ Flag.time.spellings := by
  rw [← Flag.ofArg?_eq_some_iff]
  unfold take
  repeat' split
  all_goals simp_all

@[simp] lemma mode_take (o : Options) (arg : String) : (o.take arg).mode = o.mode := by
  unfold take
  repeat' split
  all_goals rfl

lemma file_take : (o.take arg).file = if isDashed arg then o.file else some arg := by
  by_cases hdash : isDashed arg = true
  · unfold take
    repeat' split
    all_goals simp_all
  · have hflag : Flag.ofArg? arg = none :=
      Flag.ofArg?_eq_none_iff.mpr fun f hf => hdash (Flag.isDashed_of_mem_spellings hf)
    simp [take, hflag, hdash]

/-- An argument with a dash that is no flag is passed over. -/
lemma take_eq_self (hdash : isDashed arg = true) (h : ∀ f : Flag, arg ∉ f.spellings) :
    o.take arg = o := by
  rw [take, Flag.ofArg?_eq_none_iff.mpr h]
  exact if_pos hdash

/-- An argument that is no `--mode` is read by itself. -/
lemma readArgs_cons (h : arg ∉ Flag.mode.spellings) :
    readArgs o (arg :: rest) = readArgs (o.take arg) rest := by
  rw [readArgs.eq_def, take]
  dsimp only
  cases hflag : Flag.ofArg? arg with
  | none => exact (apply_ite (readArgs · rest) ..).symm
  | some f =>
    cases f with
    | help => rfl
    | mode => exact absurd (Flag.ofArg?_eq_some_iff.mp hflag) h
    | time => rfl

/-- A `--mode` and the name of a mode behind it are read together. -/
lemma readArgs_mode_cons (h : flag ∈ Flag.mode.spellings) (m : Mode) :
    readArgs o (flag :: m.name :: rest) = readArgs { o with mode := m } rest := by
  rw [readArgs, Flag.ofArg?_eq_some_iff.mpr h]
  simp

lemma readArgs_cons_of_misused (h : flag ∈ Flag.mode.spellings)
    (hno : ∀ m : Mode, rest.head? ≠ some m.name) :
    readArgs o (flag :: rest) = .error .invalidMode := by
  cases rest with
  | nil => rw [readArgs, Flag.ofArg?_eq_some_iff.mpr h]
  | cons value rest =>
    have hvalue : Mode.ofName? value = none := by
      refine Option.eq_none_iff_forall_ne_some.mpr fun m hm => hno m ?_
      rw [List.head?_cons, Mode.ofName?_eq_some_iff.mp hm]
    simp [readArgs, Flag.ofArg?_eq_some_iff.mpr h, hvalue]

/-- Induction along the reading, which goes on behind an argument, or behind two where a mode is
named. -/
theorem args_induction {P : List String → Prop} (nil : P [])
    (plain : ∀ arg rest, arg ∉ Flag.mode.spellings → P rest → P (arg :: rest))
    (mode : ∀ flag (m : Mode) rest, flag ∈ Flag.mode.spellings → P rest →
      P (flag :: m.name :: rest))
    (misused : ∀ flag rest, flag ∈ Flag.mode.spellings → (∀ m : Mode, rest.head? ≠ some m.name) →
      P (flag :: rest)) :
    ∀ args, P args
  | [] => nil
  | [arg] => by
    by_cases h : arg ∈ Flag.mode.spellings
    · exact misused arg [] h nofun
    · exact plain arg [] h nil
  | arg :: value :: rest => by
    by_cases h : arg ∈ Flag.mode.spellings
    · by_cases hname : ∃ m : Mode, value = m.name
      · obtain ⟨m, rfl⟩ := hname
        exact mode arg m rest h (args_induction nil plain mode misused rest)
      · exact misused arg _ h fun m hm => hname ⟨m, Option.some.inj hm⟩
    · exact plain arg _ h (args_induction nil plain mode misused (value :: rest))

/-- An argument with a dash that is no flag may be left out wherever it is passed over. -/
lemma readArgs_append_of_ok {front : List String} (hdash : isDashed arg = true)
    (hflag : ∀ f : Flag, arg ∉ f.spellings) (h : readArgs o (front ++ arg :: rest) = .ok o') :
    readArgs o (front ++ rest) = .ok o' := by
  induction front using args_induction generalizing o with
  | nil => rwa [List.nil_append, readArgs_cons (hflag .mode), take_eq_self hdash hflag] at h
  | plain first front hmode ih =>
    rw [List.cons_append, readArgs_cons hmode] at h ⊢
    exact ih h
  | mode first m front hmode ih =>
    rw [List.cons_append, List.cons_append, readArgs_mode_cons hmode] at h ⊢
    exact ih h
  | misused first front hmode hno =>
    have hmisused : ∀ m : Mode, (front ++ arg :: rest).head? ≠ some m.name := by
      intro m hm
      cases front with
      | nil =>
        obtain rfl := Option.some.inj hm
        cases m.isDashed_name.symm.trans hdash
      | cons value front => exact hno m hm
    rw [List.cons_append, readArgs_cons_of_misused hmode hmisused] at h
    cases h

end Options

/-! ## Arguments where they stand -/

/-- An argument, and the one directly before it if it is not the first. -/
structure Placed where
  /-- The argument directly before it. -/
  before : Option String
  /-- The argument. -/
  arg : String

/-- The arguments of a command line where they stand, if `before` stands before them. -/
def placed (before : Option String) : List String → List Placed
  | [] => []
  | arg :: rest => ⟨before, arg⟩ :: placed (some arg) rest

/-- The argument stands directly behind a `--mode`. -/
def Placed.IsMode (x : Placed) : Prop :=
  ∃ flag ∈ x.before, flag ∈ Flag.mode.spellings

/-- The argument is the name of a file: it has no dash at its beginning and no `--mode` directly before
it. -/
def Placed.IsFile (x : Placed) : Prop :=
  isDashed x.arg = false ∧ ¬ x.IsMode

instance (x : Placed) : Decidable x.IsMode :=
  inferInstanceAs (Decidable (∃ flag ∈ x.before, flag ∈ Flag.mode.spellings))

instance (x : Placed) : Decidable x.IsFile :=
  inferInstanceAs (Decidable (_ ∧ _))

/-- The arguments that stand directly behind a `--mode`. -/
def modeNames (args : List String) : List String :=
  ((placed none args).filter (·.IsMode)).map (·.arg)

/-- The arguments that are names of files. -/
def fileNames (args : List String) : List String :=
  ((placed none args).filter (·.IsFile)).map (·.arg)

/-- Somewhere a `--mode` is the last argument, or has no name of a mode directly behind it. -/
def Misused (args : List String) : Prop :=
  ∃ front flag rest, args = front ++ flag :: rest ∧ flag ∈ Flag.mode.spellings ∧
    ∀ m : Mode, rest.head? ≠ some m.name

/-- What is asked of an argument alone may be asked without regard to where it stands. -/
lemma exists_mem_placed_iff {P : String → Prop} :
    (∃ x ∈ placed before args, P x.arg) ↔ ∃ arg ∈ args, P arg := by
  induction args generalizing before with
  | nil => simp [placed]
  | cons arg rest ih => simp [placed, ih]

@[simp] lemma not_misused_nil : ¬ Misused [] := by
  rintro ⟨front, flag, rest, h, -⟩
  simp at h

lemma misused_cons :
    Misused (arg :: rest) ↔
      (arg ∈ Flag.mode.spellings ∧ ∀ m : Mode, rest.head? ≠ some m.name) ∨ Misused rest := by
  constructor
  · rintro ⟨_ | ⟨_, front⟩, flag, rest', h, hflag, hrest⟩
    · cases h
      exact .inl ⟨hflag, hrest⟩
    · cases h
      exact .inr ⟨front, flag, rest', rfl, hflag, hrest⟩
  · rintro (⟨harg, hrest⟩ | ⟨front, flag, rest', rfl, hflag, hrest⟩)
    · exact ⟨[], arg, rest, rfl, harg, hrest⟩
    · exact ⟨arg :: front, flag, rest', rfl, hflag, hrest⟩

/-- What goes behind other arguments and is misused is misused there too. -/
lemma Misused.append_left (h : Misused args) (front : List String) : Misused (front ++ args) := by
  obtain ⟨front', flag, rest, rfl, hflag⟩ := h
  exact ⟨front ++ front', flag, rest, (List.append_assoc ..).symm, hflag⟩

/-- If nothing is misused, what stands behind a `--mode` is the name of a mode. -/
lemma exists_name_of_isMode (before : Option String) (h : ¬ Misused (before.toList ++ args)) :
    ∀ x ∈ placed before args, x.IsMode → ∃ m : Mode, x.arg = m.name := by
  intro x hx hmode
  induction args generalizing before with
  | nil => cases hx
  | cons arg rest ih =>
    rcases List.mem_cons.mp hx with rfl | hx
    · obtain ⟨flag, rfl, hflag⟩ := hmode
      rw [Option.toList_some, List.singleton_append, misused_cons, not_or] at h
      by_contra hno
      exact h.1 ⟨hflag, fun m hm => hno ⟨m, Option.some.inj hm⟩⟩
    · exact ih (some arg) (fun hno => h (hno.append_left before.toList)) hx

/-! ## Effects -/

/-- What an argument does to the options, by itself or as the name of a mode. -/
def Placed.effect (x : Placed) (o : Options) : Options :=
  if x.IsMode then { o with mode := (Mode.ofName? x.arg).getD o.mode } else o.take x.arg

namespace Placed

variable {x : Placed}

lemma effect_of_isMode (h : x.IsMode) {m : Mode} (hm : x.arg = m.name) (o : Options) :
    x.effect o = { o with mode := m } := by
  rw [effect, if_pos h, hm, Mode.ofName?_name, Option.getD_some]

lemma not_isMode_mk (h : ∀ flag ∈ before, flag ∉ Flag.mode.spellings) (arg : String) :
    ¬ (⟨before, arg⟩ : Placed).IsMode :=
  fun ⟨flag, hflag, hmode⟩ => h flag hflag hmode

lemma effect_of_not_isMode (h : ¬ x.IsMode) (o : Options) : x.effect o = o.take x.arg :=
  if_neg h

/-- What a flag brings about, and nothing else does, an argument brings about if it is the flag. As the
name of a mode it is none. -/
lemma effect_iff {S : Options → Prop} {f : Flag}
    (hmode : ∀ (o : Options) (m : Mode), S { o with mode := m } ↔ S o)
    (htake : ∀ (o : Options) (arg : String), S (o.take arg) ↔ S o ∨ arg ∈ f.spellings)
    (h : x.IsMode → ∃ m : Mode, x.arg = m.name) :
    S (x.effect o) ↔ S o ∨ x.arg ∈ f.spellings := by
  by_cases hx : x.IsMode
  · obtain ⟨m, hm⟩ := h hx
    rw [effect_of_isMode hx hm, hmode, hm, or_iff_left (m.name_notMem_spellings f)]
  · rw [effect_of_not_isMode hx, htake]

lemma name_mode_effect (h : x.IsMode → ∃ m : Mode, x.arg = m.name) :
    (x.effect o).mode.name = if x.IsMode then x.arg else o.mode.name := by
  by_cases hx : x.IsMode
  · obtain ⟨m, hm⟩ := h hx
    rw [effect_of_isMode hx hm, if_pos hx, hm]
  · rw [effect_of_not_isMode hx, if_neg hx, Options.mode_take]

lemma file_effect : (x.effect o).file = if x.IsFile then some x.arg else o.file := by
  by_cases hx : x.IsMode
  · simp [effect, IsFile, hx]
  · cases hdash : isDashed x.arg <;>
      simp [effect_of_not_isMode hx, IsFile, hx, Options.file_take, hdash]

end Placed

namespace Options

variable {l : List Placed}

/-- The options after the effects of arguments, one after the other. -/
def afterAll (o : Options) (l : List Placed) : Options :=
  l.foldl (fun o x => x.effect o) o

@[simp] lemma afterAll_nil (o : Options) : o.afterAll [] = o := rfl

@[simp] lemma afterAll_cons (o : Options) (x : Placed) (l : List Placed) :
    o.afterAll (x :: l) = (x.effect o).afterAll l := rfl

@[simp] lemma afterAll_concat (o : Options) (l : List Placed) (x : Placed) :
    o.afterAll (l ++ [x]) = x.effect (o.afterAll l) := by
  simp [afterAll]

/-- What a flag brings about is never taken back. -/
lemma afterAll_iff {S : Options → Prop} {f : Flag}
    (hmode : ∀ (o : Options) (m : Mode), S { o with mode := m } ↔ S o)
    (htake : ∀ (o : Options) (arg : String), S (o.take arg) ↔ S o ∨ arg ∈ f.spellings)
    (h : ∀ x ∈ l, x.IsMode → ∃ m : Mode, x.arg = m.name) :
    S (o.afterAll l) ↔ S o ∨ ∃ x ∈ l, x.arg ∈ f.spellings := by
  induction l generalizing o with
  | nil => simp
  | cons x l ih =>
    rw [List.forall_mem_cons] at h
    rw [afterAll_cons, ih h.2, Placed.effect_iff hmode htake h.1]
    simp [or_assoc]

/-- Of what is replaced by what comes later the last remains. -/
lemma name_mode_afterAll (h : ∀ x ∈ l, x.IsMode → ∃ m : Mode, x.arg = m.name) :
    (o.afterAll l).mode.name =
      ((l.filter (·.IsMode)).map (·.arg)).getLast?.getD o.mode.name := by
  induction l using List.reverseRecOn with
  | nil => rfl
  | append_singleton l x ih =>
    rw [List.forall_mem_append, List.forall_mem_singleton] at h
    rw [afterAll_concat, Placed.name_mode_effect h.2, ih h.1, List.filter_append]
    by_cases hx : x.IsMode <;> simp [hx]

lemma file_afterAll :
    (o.afterAll l).file = ((l.filter (·.IsFile)).map (·.arg)).getLast?.or o.file := by
  induction l using List.reverseRecOn with
  | nil => rfl
  | append_singleton l x ih =>
    rw [afterAll_concat, Placed.file_effect, ih, List.filter_append]
    by_cases hx : x.IsFile <;> simp [hx]

/-- **To read is to let the effects follow each other,** where nothing is misused, and to fail where
something is. -/
theorem readArgs_eq (args : List String) (o : Options) (before : Option String)
    (hbefore : ∀ flag ∈ before, flag ∉ Flag.mode.spellings) :
    (¬ Misused args → readArgs o args = .ok (o.afterAll (placed before args))) ∧
      (Misused args → readArgs o args = .error .invalidMode) := by
  induction args using args_induction generalizing o before with
  | nil => exact ⟨fun _ => rfl, fun h => absurd h not_misused_nil⟩
  | plain arg rest hmode ih =>
    rw [misused_cons, or_iff_right fun h => hmode h.1, readArgs_cons hmode, placed, afterAll_cons,
      Placed.effect_of_not_isMode (Placed.not_isMode_mk hbefore arg)]
    exact ih (o.take arg) (some arg) (by simpa using hmode)
  | mode flag m rest hmode ih =>
    -- the flag has no effect by itself, and its value is read behind it
    have hflag : Placed.effect ⟨before, flag⟩ o = o := by
      rw [Placed.effect_of_not_isMode (Placed.not_isMode_mk hbefore flag), take,
        Flag.ofArg?_eq_some_iff.mpr hmode]
    have hvalue : Placed.effect ⟨some flag, m.name⟩ o = { o with mode := m } :=
      Placed.effect_of_isMode ⟨flag, rfl, hmode⟩ rfl o
    rw [misused_cons, or_iff_right fun h => h.2 m rfl, misused_cons,
      or_iff_right fun h => m.name_notMem_spellings .mode h.1, readArgs_mode_cons hmode, placed,
      placed, afterAll_cons, afterAll_cons, hflag, hvalue]
    exact ih _ (some m.name) (by simpa using m.name_notMem_spellings .mode)
  | misused flag rest hmode hno =>
    have hmisused : Misused (flag :: rest) := misused_cons.mpr (.inl ⟨hmode, hno⟩)
    exact ⟨fun h => absurd hmisused h, fun _ => readArgs_cons_of_misused hmode hno⟩

/-- **What a command line asks for.** It is mistaken if somewhere a `--mode` is the last argument or has
no name of a mode directly behind it, and otherwise it is understood. Then it asks for help, or for the
time, if one of the arguments does; the mode is the one named last, or to be condensed if none is named,
and the file is the last argument that is the name of a file. An argument with a dash that is no flag
changes nothing: without it the options are the same. -/
theorem ofArgs_grammar (args : List String) :
    (Misused args ↔ ofArgs args = .error .invalidMode) ∧
    (¬ Misused args → ∃ o, ofArgs args = .ok o ∧
      (o.help = true ↔ ∃ arg ∈ args, arg ∈ Flag.help.spellings) ∧
      (o.timed = true ↔ ∃ arg ∈ args, arg ∈ Flag.time.spellings) ∧
      o.mode.name = (modeNames args).getLast?.getD Mode.optimized.name ∧
      o.file = (fileNames args).getLast? ∧
      ∀ front arg rest, args = front ++ arg :: rest → isDashed arg = true →
        (∀ f : Flag, arg ∉ f.spellings) → ofArgs (front ++ rest) = .ok o) := by
  obtain ⟨hok, herror⟩ := readArgs_eq args {} none nofun
  refine ⟨⟨herror, fun h => ?_⟩, fun hno => ?_⟩
  · by_contra hno
    cases (hok hno).symm.trans h
  · have hnames := exists_name_of_isMode none hno
    refine ⟨_, hok hno, ?_, ?_, name_mode_afterAll hnames, ?_, ?_⟩
    · have hhelp := afterAll_iff (o := {}) (S := (·.help = true)) (f := .help)
        (fun _ _ => .rfl) (fun _ _ => help_take) hnames
      simpa [exists_mem_placed_iff] using hhelp
    · have htimed := afterAll_iff (o := {}) (S := (·.timed = true)) (f := .time)
        (fun _ _ => .rfl) (fun _ _ => timed_take) hnames
      simpa [exists_mem_placed_iff] using htimed
    · rw [file_afterAll, Option.or_none]
      rfl
    · rintro front arg rest rfl hdash hflag
      exact readArgs_append_of_ok hdash hflag (hok hno)

/-- Three modes and two files, of which the last ones count, the time, and an argument with a dash that
is no flag. -/
theorem ofArgs_grammar_repeated :
    let args := ["-x", "--mode", "raw", "a", "-m", "optimized", "b", "-t", "--mode", "raw"]
    ¬ Misused args ∧ ∃ o, ofArgs args = .ok o ∧ o.help = false ∧ o.timed = true ∧
      o.mode.name = "raw" ∧ o.file = some "b" ∧ ofArgs args.tail = .ok o := by
  intro args
  have hno : ¬ Misused args := by
    intro h
    cases (ofArgs_grammar args).1.mp h
  obtain ⟨o, ho, hhelp, htimed, hmode, hfile, hskip⟩ := (ofArgs_grammar args).2 hno
  have hunknown : ∀ f : Flag, "-x" ∉ f.spellings := by
    intro f
    cases f <;> decide
  refine ⟨hno, o, ho, ?_, htimed.mpr (by decide), hmode, hfile, hskip [] "-x" _ rfl rfl hunknown⟩
  rw [← Bool.not_eq_true, hhelp]
  decide

end Options

end Cli

end TapeLang
