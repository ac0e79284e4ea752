import MayAlias.Options.Arguments
import MayAlias.Proofs.Problem

/-!
# What arguments say

`Reads` says without a state which arguments can be read, and what each of them mentions: an option
with its value attached or behind it, an option that goes without, the flag, the procedure, and
behind `--` nothing but procedures.  Reading from left to right comes to the same
(`settingsOf_eq_ok_iff`): the value that is still to be checked and the option that still waits are
settled before the end, and what is left to the second phase is that every option mentioned has a
value and only queries have several.
-/

namespace MayAlias

/-! ## Words -/

/-- The argument is not taken for an option. -/
def Plain (text : String) : Prop := text = "-" ∨ text.toList.head? ≠ some '-'

namespace ArgumentForm

/-- Without an equals sign, the whole text is the name. -/
lemma splitEquals_of_notMem {cs : List Char} (h : '=' ∉ cs) : splitEquals cs = (cs, none) := by
  induction cs with
  | nil => rfl
  | cons c cs ih =>
    rw [List.mem_cons, not_or] at h
    rw [splitEquals, if_neg (Ne.symm h.1), ih h.2]

/-- The first equals sign ends the name. -/
lemma splitEquals_append {name : List Char} (h : '=' ∉ name) (value : List Char) :
    splitEquals (name ++ '=' :: value) = (name, some value) := by
  induction name with
  | nil => simp [splitEquals]
  | cons c name ih =>
    rw [List.mem_cons, not_or] at h
    rw [List.cons_append, splitEquals, if_neg (Ne.symm h.1), ih h.2]

/-- The parts around the equals sign make up the whole. -/
lemma eq_of_splitEquals (cs : List Char) :
    cs = (splitEquals cs).1 ++ ((splitEquals cs).2.map ('=' :: ·)).getD [] := by
  induction cs with
  | nil => rfl
  | cons c cs ih =>
    rw [splitEquals]
    split
    · next hc => simp [hc]
    · exact congrArg (c :: ·) ih

/-- Behind two dashes stands a name, and what is attached to it. -/
lemma ofText_of_dashes {text : String} {cs : List Char} (h : text.toList = '-' :: '-' :: cs)
    (hne : cs ≠ []) : ofText text = long (String.ofList (splitEquals cs).1)
      ((splitEquals cs).2.map String.ofList) := by
  obtain ⟨c, cs, rfl⟩ := List.exists_cons_of_ne_nil hne
  rw [ofText, h]
  rfl

/-- An option without a value. -/
lemma ofText_long {name : String} (hne : name ≠ "") (h : '=' ∉ name.toList) :
    ofText ("--" ++ name) = long name none := by
  have htext : ("--" ++ name).toList = '-' :: '-' :: name.toList := String.toList_append
  rw [ofText_of_dashes htext (mt String.toList_eq_nil_iff.1 hne), splitEquals_of_notMem h]
  simp

/-- An option with its value attached; the value may hold further equals signs. -/
lemma ofText_long_value {name : String} (h : '=' ∉ name.toList) (value : String) :
    ofText ("--" ++ name ++ "=" ++ value) = long name (some value) := by
  have htext : ("--" ++ name ++ "=" ++ value).toList
      = '-' :: '-' :: (name.toList ++ '=' :: value.toList) := by simp
  rw [ofText_of_dashes htext (by simp), splitEquals_append h]
  simp

/-- A long argument is spelled by its name and its value. -/
lemma eq_of_splitEquals_text {text : String} {cs : List Char}
    (h : text.toList = '-' :: '-' :: cs) :
    text = "--" ++ String.ofList (splitEquals cs).1
      ++ (((splitEquals cs).2.map String.ofList).map ("=" ++ ·)).getD "" := by
  apply String.toList_inj.1
  have hcs := eq_of_splitEquals cs
  rw [h]
  cases hvalue : (splitEquals cs).2 with
  | none =>
    rw [hvalue] at hcs
    simpa using hcs
  | some value =>
    rw [hvalue] at hcs
    simpa using hcs

/-- A single dash and what does not start with a dash are plain. -/
lemma ofText_of_plain {text : String} (h : Plain text) : ofText text = plain := by
  unfold ofText
  rcases h with rfl | h
  · rfl
  · split
    · next htext => simp [htext] at h
    · next htext => simp [htext] at h
    · next htext => simp [htext] at h
    · rfl

/-- The forms of an argument with their spellings. -/
lemma ofText_cases (text : String) :
    text = "--" ∧ ofText text = separator ∨
      (∃ name value, ofText text = long name value ∧
        text = "--" ++ name ++ (value.map ("=" ++ ·)).getD "") ∨
      (∃ letter, ofText text = short letter) ∧ ¬ Plain text ∨
      ofText text = plain ∧ Plain text := by
  unfold Plain
  rcases hcs : text.toList with _ | ⟨c, _ | ⟨d, cs⟩⟩
  · simp [ofText, hcs]
  -- a single character: only a dash could be taken for an option
  · by_cases hc : c = '-'
    · have htext : text = "-" := String.toList_inj.1 (by rw [hcs, hc]; rfl)
      simp [ofText, htext]
    · simp [ofText, hcs, hc]
  · by_cases hc : c = '-'
    · subst hc
      have hne : text ≠ "-" := by
        rintro rfl
        simp at hcs
      by_cases hd : d = '-'
      · subst hd
        by_cases hnil : cs = []
        · subst hnil
          exact Or.inl ⟨String.toList_inj.1 hcs, by rw [ofText, hcs]; rfl⟩
        · exact Or.inr (Or.inl ⟨_, _, ofText_of_dashes hcs hnil, eq_of_splitEquals_text hcs⟩)
      · simp [ofText, hcs, hd, hne]
    · simp [ofText, hcs, hc]

end ArgumentForm

/-! ## The grammar -/

/-- The mentions of arguments that cannot be options. -/
def procedures (texts : List String) : List Mention :=
  texts.map fun text => ⟨.procedure, some (.procedure text)⟩

/-- The arguments are read as these mentions, in order. -/
inductive Reads : List String → List Mention → Prop
  | nil : Reads [] []
  /-- `--name=value` -/
  | attached {name value : String} {option : OptionName} {setting : Setting}
      {rest : List String} {ms : List Mention} (hname : (name, option) ∈ OptionName.valued)
      (hvalue : option.setting value = .ok setting) (hrest : Reads rest ms) :
      Reads (("--" ++ name ++ "=" ++ value) :: rest) (⟨option, some setting⟩ :: ms)
  /-- `--name value` -/
  | separate {name value : String} {option : OptionName} {setting : Setting}
      {rest : List String} {ms : List Mention} (hname : (name, option) ∈ OptionName.valued)
      (hplain : Plain value) (hvalue : option.setting value = .ok setting)
      (hrest : Reads rest ms) :
      Reads (("--" ++ name) :: value :: rest) (⟨option, some setting⟩ :: ms)
  /-- `--name` without a value. -/
  | bare {name : String} {option : OptionName} {rest : List String} {ms : List Mention}
      (hname : (name, option) ∈ OptionName.valued) (hnext : ∀ next ∈ rest.head?, ¬ Plain next)
      (hrest : Reads rest ms) :
      Reads (("--" ++ name) :: rest) (⟨option, none⟩ :: ms)
  | flag {rest : List String} {ms : List Mention} (hrest : Reads rest ms) :
      Reads ("--dump-stats" :: rest) (⟨.dumpStats, some .statistics⟩ :: ms)
  | procedure {text : String} {rest : List String} {ms : List Mention} (hplain : Plain text)
      (hrest : Reads rest ms) :
      Reads (text :: rest) (⟨.procedure, some (.procedure text)⟩ :: ms)
  /-- Behind `--` every argument is a procedure. -/
  | separator (texts : List String) :
      Reads ("--" :: texts) (procedures texts)

/-! ## Single steps -/

namespace Scan

/-- What the argument that is still to be checked turns out to mention. -/
def checked (pending : Option (OptionName × Option String)) :
    Except ArgumentError (List Mention) :=
  (settle { pending }).map Scan.mentions

/-- The state with more mentions and another argument to check. -/
def advance (s : Scan) (ms : List Mention) (pending : Option (OptionName × Option String))
    (waiting : Bool) : Scan :=
  { s with mentions := s.mentions ++ ms, pending, waiting }

/-- Settling checks the value that is pending and mentions it. -/
lemma settle_eq (s : Scan) :
    s.settle = (checked s.pending).map fun ms => s.advance ms none s.waiting := by
  obtain ⟨mentions, pending, waiting, literal, hasProcedure⟩ := s
  rcases pending with _ | ⟨name, _ | text⟩
  · simp [settle, checked, advance, Except.map]
  · rfl
  · cases hsetting : name.setting text with
    | error e => simp [settle, checked, hsetting, Except.map, bind, Except.bind]
    | ok setting => simp [settle, checked, hsetting, advance, Except.map, bind, Except.bind]

/-- Settling succeeds when the value that is pending is one for its option. -/
lemma settle_eq_ok_iff {s t : Scan} :
    s.settle = .ok t ↔ ∃ ms, checked s.pending = .ok ms ∧ t = s.advance ms none s.waiting := by
  rw [settle_eq]
  cases checked s.pending with
  | error e => simp [Except.map]
  | ok ms => simp [Except.map, eq_comm]

lemma checked_value_eq_ok_iff {name : OptionName} {text : String} {ms : List Mention} :
    checked (some (name, some text)) = .ok ms ↔
      ∃ setting, name.setting text = .ok setting ∧ ms = [⟨name, some setting⟩] := by
  cases hsetting : name.setting text with
  | error e => simp [checked, settle, hsetting, Except.map, bind, Except.bind]
  | ok setting => simp [checked, settle, hsetting, Except.map, bind, Except.bind, eq_comm]

/-- A new option first settles the one before it. -/
lemma push_eq_ok_iff {s t : Scan} {name : OptionName} {value : Option String} {waiting : Bool} :
    s.push name value waiting = .ok t ↔ ∃ ms, checked s.pending = .ok ms ∧
      t = s.advance ms (some (name, value)) waiting := by
  unfold push
  rw [bind_eq_ok_iff]
  constructor
  · rintro ⟨u, hu, hok⟩
    obtain ⟨ms, hms, rfl⟩ := settle_eq_ok_iff.1 hu
    exact ⟨ms, hms, (Except.ok.inj hok).symm⟩
  · rintro ⟨ms, hms, rfl⟩
    exact ⟨_, settle_eq_ok_iff.2 ⟨ms, hms, rfl⟩, rfl⟩

/-- An attached value is checked at once. -/
lemma valued_eq_ok_iff {s t : Scan} {name : OptionName} {text : String} :
    s.valued name (some text) = .ok t ↔ ∃ ms setting, checked s.pending = .ok ms ∧
      name.setting text = .ok setting ∧
        t = s.advance (ms ++ [⟨name, some setting⟩]) none false := by
  unfold valued
  rw [bind_eq_ok_iff]
  constructor
  · rintro ⟨u, hu, hok⟩
    obtain ⟨ms, hms, rfl⟩ := push_eq_ok_iff.1 hu
    obtain ⟨ms', hms', rfl⟩ := settle_eq_ok_iff.1 hok
    obtain ⟨setting, hsetting, rfl⟩ := checked_value_eq_ok_iff.1 hms'
    exact ⟨ms, setting, hms, hsetting, by simp [advance]⟩
  · rintro ⟨ms, setting, hms, hsetting, rfl⟩
    refine ⟨_, push_eq_ok_iff.2 ⟨ms, hms, rfl⟩, settle_eq_ok_iff.2 ⟨[⟨name, some setting⟩], ?_, ?_⟩⟩
    · exact checked_value_eq_ok_iff.2 ⟨setting, hsetting, rfl⟩
    · simp [advance]

/-- There is room for one procedure only. -/
lemma positional_eq_ok_iff {s t : Scan} {text : String} :
    s.positional text = .ok t ↔ s.hasProcedure = false ∧ ∃ ms, checked s.pending = .ok ms ∧
      t = { s.advance ms (some (.procedure, some text)) false with hasProcedure := true } := by
  unfold positional
  cases s.hasProcedure with
  | true => simp
  | false =>
    simp only [Bool.false_eq_true, if_false, true_and]
    rw [bind_eq_ok_iff]
    constructor
    · rintro ⟨u, hu, hok⟩
      obtain ⟨ms, hms, rfl⟩ := push_eq_ok_iff.1 hu
      exact ⟨ms, hms, (Except.ok.inj hok).symm⟩
    · rintro ⟨ms, hms, rfl⟩
      exact ⟨_, push_eq_ok_iff.2 ⟨ms, hms, rfl⟩, rfl⟩

/-- A request for help or for the version ends the reading. -/
lemma request_ne_ok (s t : Scan) (display : ArgumentError) : s.request display ≠ .ok t := by
  unfold request
  intro h
  obtain ⟨_, _, hok⟩ := bind_eq_ok_iff.1 h
  simp at hok

/-- The long arguments with which reading goes on. -/
lemma spelling_of_long {s t : Scan} {name : String} {value : Option String}
    (h : s.long name value = .ok t) :
    (∃ option, (name, option) ∈ OptionName.valued) ∨ name = "dump-stats" ∧ value = none := by
  unfold long at h
  split at h
  · next option hlookup =>
    obtain ⟨before, behind, heq, _⟩ := List.lookup_eq_some_iff.1 hlookup
    exact Or.inl ⟨option, by rw [heq]; simp⟩
  · right
    split at h
    · split at h
      · simp at h
      · next hvalue =>
        -- help and version end the reading, so the flag is left
        split at h
        · exact absurd h (request_ne_ok s t _)
        split at h
        · exact absurd h (request_ne_ok s t _)
        next hmem hhelp hversion =>
        refine ⟨?_, by simpa using hvalue⟩
        simpa [hhelp, hversion] using hmem
    · simp at h

/-- No option has a short form, other than the requests. -/
lemma short_ne_ok (s t : Scan) (letter : Char) : s.short letter ≠ .ok t := by
  unfold short
  split
  · exact request_ne_ok s t _
  split
  · exact request_ne_ok s t _
  · simp

/-- The names of options are told from their values and from each other. -/
lemma spelling_of_valued {name : String} {option : OptionName}
    (h : (name, option) ∈ OptionName.valued) :
    name ≠ "" ∧ '=' ∉ name.toList ∧ OptionName.valued.lookup name = some option := by
  have hall : ∀ entry ∈ OptionName.valued, entry.1 ≠ "" ∧ '=' ∉ entry.1.toList ∧
      OptionName.valued.lookup entry.1 = some entry.2 := by decide
  exact hall _ h

section Step

variable {s : Scan} (hliteral : s.literal = false)

include hliteral

lemma step_separator : s.step "--" = .ok { s with literal := true } := by
  simp [step, hliteral, ArgumentForm.ofText]

/-- An option of the list, with its value attached. -/
lemma step_attached {name : String} {option : OptionName}
    (hname : (name, option) ∈ OptionName.valued) (value : String) :
    s.step ("--" ++ name ++ "=" ++ value) = s.valued option (some value) := by
  obtain ⟨_, hequals, hlookup⟩ := spelling_of_valued hname
  rw [step, hliteral, ArgumentForm.ofText_long_value hequals]
  simp [long, hlookup]

/-- An option of the list without a value waits for one. -/
lemma step_bare {name : String} {option : OptionName}
    (hname : (name, option) ∈ OptionName.valued) :
    s.step ("--" ++ name) = s.push option none true := by
  obtain ⟨hne, hequals, hlookup⟩ := spelling_of_valued hname
  rw [step, hliteral, ArgumentForm.ofText_long hne hequals]
  simp [long, hlookup, valued]

/-- The flag takes no value. -/
lemma step_flag : s.step "--dump-stats" = s.push .dumpStats (some "") false := by
  have hform : ArgumentForm.ofText ("--" ++ "dump-stats") = .long "dump-stats" none :=
    ArgumentForm.ofText_long (by decide) (by decide)
  have hlookup : OptionName.valued.lookup "dump-stats" = none := by decide
  rw [show "--dump-stats" = "--" ++ "dump-stats" from rfl, step, hliteral, hform]
  simp [long, hlookup]

/-- A plain argument is the value waited for, or the procedure. -/
lemma step_plain {text : String} (hplain : Plain text) :
    s.step text = if s.waiting then .ok (s.fill text) else s.positional text := by
  rw [step, hliteral, ArgumentForm.ofText_of_plain hplain]
  rfl

/-- What an argument can be when reading goes on. -/
lemma spelling_of_step {t : Scan} {text : String} (h : s.step text = .ok t) :
    text = "--" ∨
      (∃ name option value, (name, option) ∈ OptionName.valued ∧
        text = "--" ++ name ++ "=" ++ value) ∨
      (∃ name option, (name, option) ∈ OptionName.valued ∧ text = "--" ++ name) ∨
      text = "--dump-stats" ∨ Plain text := by
  rw [step, hliteral] at h
  rcases ArgumentForm.ofText_cases text with ⟨htext, _⟩ | ⟨name, value, hform, htext⟩ |
    ⟨⟨letter, hform⟩, _⟩ | ⟨_, hplain⟩
  · exact Or.inl htext
  · rw [hform] at h
    rcases spelling_of_long h with ⟨option, hname⟩ | ⟨rfl, rfl⟩
    · cases value with
      | none => exact Or.inr (Or.inr (Or.inl ⟨name, option, hname, by simpa using htext⟩))
      | some value =>
        refine Or.inr (Or.inl ⟨name, option, value, hname, ?_⟩)
        simpa [String.append_assoc] using htext
    · exact Or.inr (Or.inr (Or.inr (Or.inl (by simpa using htext))))
  · rw [hform] at h
    exact absurd h (short_ne_ok s t letter)
  · exact Or.inr (Or.inr (Or.inr (Or.inr hplain)))

end Step

/-! ## Reading from left to right -/

lemma all_cons (s : Scan) (text : String) (rest : List String) :
    s.all (text :: rest) = s.step text >>= fun t => t.all rest := rfl

lemma all_cons_of_step {s t : Scan} {text : String} (h : s.step text = .ok t)
    (rest : List String) : s.all (text :: rest) = t.all rest := by
  rw [all_cons, h]
  rfl

/-- Behind `--` everything that is read is a procedure. -/
lemma mentions_of_all_literal {s s' : Scan} {texts : List String} (h : s.all texts = .ok s')
    (hliteral : s.literal = true) :
    ∃ ps, checked s.pending = .ok ps ∧ s'.mentions = s.mentions ++ ps ++ procedures texts := by
  induction texts generalizing s with
  | nil =>
    obtain ⟨ps, hps, rfl⟩ := settle_eq_ok_iff.1 h
    exact ⟨ps, hps, (List.append_nil _).symm⟩
  | cons text rest ih =>
    rw [all_cons, bind_eq_ok_iff] at h
    obtain ⟨t, ht, hrest⟩ := h
    rw [step, if_pos hliteral] at ht
    obtain ⟨_, ps, hps, rfl⟩ := positional_eq_ok_iff.1 ht
    obtain ⟨ps', hps', hmentions⟩ := ih hrest hliteral
    obtain ⟨setting, hsetting, rfl⟩ := checked_value_eq_ok_iff.1 hps'
    obtain rfl := Except.ok.inj hsetting
    exact ⟨ps, hps, by simp [hmentions, advance, procedures]⟩

/-- What is read from a state on are the argument still to be checked and the arguments to come. -/
def Yields (s : Scan) (args : List String) (s' : Scan) : Prop :=
  ∃ ps ms, checked s.pending = .ok ps ∧ Reads args ms ∧ s'.mentions = s.mentions ++ ps ++ ms

/-- What is read from a state on follows the grammar.  An option that waits for its value has been
taken from the arguments but is not mentioned yet, so it is put back in front of them. -/
structure Follows (s : Scan) (args : List String) (s' : Scan) : Prop where
  idle : s.waiting = false → s.Yields args s'
  waiting : ∀ name option, s.waiting = true → s.pending = some (option, none) →
    (name, option) ∈ OptionName.valued →
    ∃ ms, Reads (("--" ++ name) :: args) ms ∧ s'.mentions = s.mentions ++ ms

section Follows

variable {s t s' : Scan} {text : String} {rest : List String} (hliteral : s.literal = false)
  (ht : s.step text = .ok t) (hrest : t.all rest = .ok s')
  (hfollows : t.literal = false → t.Follows rest s')

include hliteral ht hrest hfollows

/-- An argument that is taken for an option is read alike whether another option waits or not. -/
lemma yields_of_option (hoption : ¬ Plain text) : s.Yields (text :: rest) s' := by
  rcases spelling_of_step hliteral ht with rfl | ⟨name, option, value, hname, rfl⟩ |
    ⟨name, option, hname, rfl⟩ | rfl | hplain
  -- behind the separator there are only procedures
  · rw [step_separator hliteral] at ht
    obtain rfl := Except.ok.inj ht
    obtain ⟨ps, hps, hmentions⟩ := mentions_of_all_literal hrest rfl
    exact ⟨ps, _, hps, .separator rest, hmentions⟩
  · rw [step_attached hliteral hname] at ht
    obtain ⟨ps, setting, hps, hsetting, rfl⟩ := valued_eq_ok_iff.1 ht
    obtain ⟨ps', ms, hps', hms, hmentions⟩ := (hfollows hliteral).idle rfl
    obtain rfl := Except.ok.inj hps'
    exact ⟨ps, _, hps, .attached hname hsetting hms, by simp [hmentions, advance]⟩
  · rw [step_bare hliteral hname] at ht
    obtain ⟨ps, hps, rfl⟩ := push_eq_ok_iff.1 ht
    obtain ⟨ms, hms, hmentions⟩ := (hfollows hliteral).waiting name option rfl rfl hname
    exact ⟨ps, ms, hps, hms, hmentions⟩
  · rw [step_flag hliteral] at ht
    obtain ⟨ps, hps, rfl⟩ := push_eq_ok_iff.1 ht
    obtain ⟨ps', ms, hps', hms, hmentions⟩ := (hfollows hliteral).idle rfl
    obtain ⟨setting, hsetting, rfl⟩ := checked_value_eq_ok_iff.1 hps'
    obtain rfl := Except.ok.inj hsetting
    exact ⟨ps, _, hps, .flag hms, by simp [hmentions, advance]⟩
  · exact absurd hplain hoption

/-- When no option waits, an argument that is not one is the procedure. -/
lemma yields_of_procedure (hplain : Plain text) (hwaiting : s.waiting = false) :
    s.Yields (text :: rest) s' := by
  rw [step_plain hliteral hplain, hwaiting] at ht
  obtain ⟨_, ps, hps, rfl⟩ := positional_eq_ok_iff.1 ht
  obtain ⟨ps', ms, hps', hms, hmentions⟩ := (hfollows hliteral).idle rfl
  obtain ⟨setting, hsetting, rfl⟩ := checked_value_eq_ok_iff.1 hps'
  obtain rfl := Except.ok.inj hsetting
  exact ⟨ps, _, hps, .procedure hplain hms, by simp [hmentions, advance]⟩

/-- One more argument is read in accordance with the grammar. -/
lemma follows_cons : s.Follows (text :: rest) s' where
  idle := by
    intro hwaiting
    by_cases hplain : Plain text
    · exact yields_of_procedure hliteral ht hrest hfollows hplain hwaiting
    · exact yields_of_option hliteral ht hrest hfollows hplain
  waiting := by
    intro name option hwaiting hpending hname
    by_cases hplain : Plain text
    · rw [step_plain hliteral hplain, hwaiting] at ht
      obtain rfl := Except.ok.inj ht
      obtain ⟨ps, ms, hps, hms, hmentions⟩ := (hfollows hliteral).idle rfl
      simp only [fill, hpending, Option.map_some] at hps
      obtain ⟨setting, hsetting, rfl⟩ := checked_value_eq_ok_iff.1 hps
      exact ⟨_, .separate hname hplain hsetting hms, by simp [hmentions, fill]⟩
    · obtain ⟨ps, ms, hps, hms, hmentions⟩ := yields_of_option hliteral ht hrest hfollows hplain
      rw [hpending] at hps
      obtain rfl := Except.ok.inj hps
      exact ⟨_, .bare hname (by simpa using hplain) hms, by simp [hmentions]⟩

end Follows

/-- All arguments are read in accordance with the grammar. -/
lemma follows_of_all {s s' : Scan} {args : List String} (h : s.all args = .ok s')
    (hliteral : s.literal = false) : s.Follows args s' := by
  induction args generalizing s with
  | nil =>
    obtain ⟨ps, hps, rfl⟩ := settle_eq_ok_iff.1 h
    constructor
    · intro _
      exact ⟨ps, [], hps, .nil, (List.append_nil _).symm⟩
    · intro name option _ hpending hname
      rw [hpending] at hps
      obtain rfl := Except.ok.inj hps
      exact ⟨_, .bare hname (by simp) .nil, rfl⟩
  | cons text rest ih =>
    rw [all_cons, bind_eq_ok_iff] at h
    obtain ⟨t, ht, hrest⟩ := h
    exact follows_cons hliteral ht hrest fun hliteral => ih hrest hliteral

/-! ## What the grammar admits -/

/-- Is this a mention of the procedure? -/
def isProcedure (m : Mention) : Bool := m.name = .procedure

/-- If all mentions have room for their procedures, those that are left have. -/
lemma few_of_cons {n : ℕ} {m : Mention} {ms : List Mention}
    (h : n + (m :: ms).countP isProcedure ≤ 1) : n + ms.countP isProcedure ≤ 1 := by
  have hle : ms.countP isProcedure ≤ (m :: ms).countP isProcedure :=
    (List.sublist_cons_self m ms).countP_le
  omega

lemma countP_procedures (texts : List String) :
    (procedures texts).countP isProcedure = texts.length := by
  unfold procedures
  rw [List.countP_map]
  exact List.countP_eq_length.2 fun _ _ => rfl

/-- There is room for another procedure only if there was none before, and then for just one. -/
lemma room_for_procedure {given : Bool} {n : ℕ} (h : given.toNat + (n + 1) ≤ 1) :
    given = false ∧ true.toNat + n ≤ 1 := by
  cases given with
  | false =>
    rw [Bool.toNat_false] at h
    rw [Bool.toNat_true]
    exact ⟨rfl, by omega⟩
  | true =>
    rw [Bool.toNat_true] at h
    omega

/-- Behind `--` one procedure can be read, if there was none before. -/
lemma exists_all_literal {s : Scan} {ps : List Mention} {texts : List String}
    (hliteral : s.literal = true) (hps : checked s.pending = .ok ps)
    (hfew : s.hasProcedure.toNat + texts.length ≤ 1) :
    ∃ s', s.all texts = .ok s' ∧ s'.mentions = s.mentions ++ ps ++ procedures texts := by
  induction texts generalizing s ps with
  | nil => exact ⟨_, settle_eq_ok_iff.2 ⟨ps, hps, rfl⟩, (List.append_nil _).symm⟩
  | cons text rest ih =>
    rw [List.length_cons] at hfew
    obtain ⟨hfirst, hlast⟩ := room_for_procedure hfew
    have hstep : s.step text = .ok
        { s.advance ps (some (.procedure, some text)) false with hasProcedure := true } := by
      rw [step, if_pos hliteral]
      exact positional_eq_ok_iff.2 ⟨hfirst, ps, hps, rfl⟩
    rw [all_cons_of_step hstep]
    obtain ⟨s', hs', hmentions⟩ := ih
      (s := { s.advance ps (some (.procedure, some text)) false with hasProcedure := true })
      hliteral rfl hlast
    exact ⟨s', hs', by simp [hmentions, advance, procedures]⟩

/-- Arguments that follow the grammar are read, as long as at most one of them is a procedure. -/
lemma exists_all_of_reads {args : List String} {ms : List Mention} (h : Reads args ms) {s : Scan}
    {ps : List Mention} (hliteral : s.literal = false) (hps : checked s.pending = .ok ps)
    (hwaiting : s.waiting = true → ∀ next ∈ args.head?, ¬ Plain next)
    (hfew : s.hasProcedure.toNat + ms.countP isProcedure ≤ 1) :
    ∃ s', s.all args = .ok s' ∧ s'.mentions = s.mentions ++ ps ++ ms := by
  -- The state is general, because a step leaves its own argument to be checked by the next one.
  induction h generalizing s ps with
  | nil => exact ⟨_, settle_eq_ok_iff.2 ⟨ps, hps, rfl⟩, (List.append_nil _).symm⟩
  | @attached name value option setting rest ms hname hvalue _ ih =>
    have hstep := (step_attached hliteral hname value).trans
      (valued_eq_ok_iff.2 ⟨ps, setting, hps, hvalue, rfl⟩)
    obtain ⟨s', hs', hmentions⟩ := ih (s := s.advance (ps ++ [⟨option, some setting⟩]) none false)
      hliteral rfl (by simp [advance]) (few_of_cons hfew)
    exact ⟨s', (all_cons_of_step hstep rest).trans hs', by simp [hmentions, advance]⟩
  | @separate name value option setting rest ms hname hplain hvalue _ ih =>
    -- two steps: the option starts to wait, and the value ends this
    have hbare := (step_bare hliteral hname).trans (push_eq_ok_iff.2 ⟨ps, hps, rfl⟩)
    have hfill := step_plain (s := s.advance ps (some (option, none)) true) hliteral hplain
    obtain ⟨s', hs', hmentions⟩ := ih (s := s.advance ps (some (option, some value)) false)
      hliteral (checked_value_eq_ok_iff.2 ⟨setting, hvalue, rfl⟩) (by simp [advance])
      (few_of_cons hfew)
    refine ⟨s', ?_, by simp [hmentions, advance]⟩
    rw [all_cons_of_step hbare, all_cons_of_step hfill]
    exact hs'
  | @bare name option rest ms hname hnext _ ih =>
    have hstep := (step_bare hliteral hname).trans (push_eq_ok_iff.2 ⟨ps, hps, rfl⟩)
    obtain ⟨s', hs', hmentions⟩ := ih (s := s.advance ps (some (option, none)) true)
      hliteral rfl (fun _ => hnext) (few_of_cons hfew)
    exact ⟨s', (all_cons_of_step hstep rest).trans hs', by simp [hmentions, advance]⟩
  | @flag rest ms _ ih =>
    have hstep := (step_flag hliteral).trans (push_eq_ok_iff.2 ⟨ps, hps, rfl⟩)
    obtain ⟨s', hs', hmentions⟩ := ih (s := s.advance ps (some (.dumpStats, some "")) false)
      hliteral rfl (by simp [advance]) (few_of_cons hfew)
    exact ⟨s', (all_cons_of_step hstep rest).trans hs', by simp [hmentions, advance]⟩
  | @procedure text rest ms hplain _ ih =>
    have hidle : s.waiting = false := by
      by_contra hwaits
      exact hwaiting (by simpa using hwaits) text rfl hplain
    rw [List.countP_cons_of_pos (by rfl)] at hfew
    obtain ⟨hfirst, hlast⟩ := room_for_procedure hfew
    have hstep : s.step text = .ok
        { s.advance ps (some (.procedure, some text)) false with hasProcedure := true } := by
      rw [step_plain hliteral hplain, hidle]
      exact positional_eq_ok_iff.2 ⟨hfirst, ps, hps, rfl⟩
    obtain ⟨s', hs', hmentions⟩ := ih
      (s := { s.advance ps (some (.procedure, some text)) false with hasProcedure := true })
      hliteral rfl (by simp [advance]) hlast
    exact ⟨s', (all_cons_of_step hstep rest).trans hs', by simp [hmentions, advance]⟩
  | separator texts =>
    rw [countP_procedures] at hfew
    rw [all_cons_of_step (step_separator hliteral)]
    exact exists_all_literal rfl hps hfew

end Scan

/-! ## Calls as a whole -/

/-- The call is read without an error, as these mentions. -/
structure Accepts (args : List String) (ms : List Mention) : Prop where
  reads : Reads args ms
  /-- Whatever is mentioned has a value somewhere in the call. -/
  valued : ∀ m ∈ ms, ∃ m' ∈ ms, m'.name = m.name ∧ m'.setting.isSome
  /-- Only queries are mentioned more than once. -/
  once : ∀ m ∈ ms, m.name ≠ .query → ms.countP (fun m' => m'.name = m.name) = 1

/-- Nothing is wrong with an option that has a value, once unless it may be repeated. -/
lemma usageError?_eq_none_iff {ms : List Mention} {name : OptionName}
    (hmem : ∃ m ∈ ms, m.name = name) : usageError? ms name = none ↔
      (∃ m ∈ ms, m.name = name ∧ m.setting.isSome) ∧
        (name ≠ .query → ms.countP (fun m => m.name = name) = 1) := by
  have hvalue : hasValue ms name = true ↔ ∃ m ∈ ms, m.name = name ∧ m.setting.isSome := by
    simp [hasValue]
  have hpos : 0 < ms.countP (fun m => m.name = name) := by
    simpa [List.countP_pos_iff] using hmem
  unfold usageError? OptionName.repeatable
  rw [← hvalue]
  cases hasValue ms name with
  | false => simp
  | true =>
    by_cases hquery : name = .query
    · simp [hquery]
    · simp [hquery]
      omega

/-- The second phase finds nothing wrong when every option mentioned is used as it should.  An
option at the end that still waits needs no check of its own. -/
lemma callError?_eq_none_iff {s : Scan} :
    callError? s = none ↔ ∀ m ∈ s.mentions, usageError? s.mentions m.name = none := by
  have hnames : (s.mentions.map Mention.name).eraseDups.findSome? (usageError? s.mentions) = none ↔
      ∀ m ∈ s.mentions, usageError? s.mentions m.name = none := by
    simp [List.findSome?_eq_none_iff]
  unfold callError?
  dsimp only
  split
  · next hunfinished =>
    obtain ⟨_, hlast⟩ := Bool.and_eq_true_iff.1 hunfinished
    cases hname : (s.mentions.map Mention.name).getLast? with
    | none => simp [hname] at hlast
    | some name =>
      -- the option mentioned last has no value, so it is at fault as well
      obtain ⟨m, hm, rfl⟩ := List.mem_map.1 (List.mem_of_getLast? hname)
      simp only [hname, Option.map_some, Option.getD_some] at hlast
      have herror : usageError? s.mentions m.name = some .emptyValue := by
        rw [usageError?, if_pos hlast]
      constructor
      · intro h
        simp at h
      · intro h
        simp [h m hm] at herror
  · exact hnames

/-- Arguments that can be read are accepted when nothing is wrong with any option mentioned. -/
lemma accepts_iff {args : List String} {ms : List Mention} (h : Reads args ms) :
    Accepts args ms ↔ ∀ m ∈ ms, usageError? ms m.name = none := by
  constructor
  · intro haccepts m hm
    exact (usageError?_eq_none_iff ⟨m, hm, rfl⟩).2 ⟨haccepts.valued m hm, haccepts.once m hm⟩
  · intro hnone
    have husage := fun m hm => (usageError?_eq_none_iff ⟨m, hm, rfl⟩).1 (hnone m hm)
    exact ⟨h, fun m hm => (husage m hm).1, fun m hm => (husage m hm).2⟩

/-- An accepted call mentions an option other than the queries at most once. -/
lemma Accepts.countP_name_le {args : List String} {ms : List Mention} {name : OptionName}
    (h : Accepts args ms) (hquery : name ≠ .query) : ms.countP (fun m => m.name = name) ≤ 1 := by
  by_cases hmem : ∃ m ∈ ms, m.name = name
  · obtain ⟨m, hm, rfl⟩ := hmem
    exact Nat.le_of_eq (h.once m hm hquery)
  · have hzero : ms.countP (fun m => m.name = name) = 0 := by
      simpa [List.countP_eq_zero] using hmem
    omega

/-- Reading a call gives its settings exactly when the call is accepted. -/
theorem settingsOf_eq_ok_iff {args : List String} {settings : List Setting} :
    settingsOf args = .ok settings ↔
      ∃ ms, Accepts args ms ∧ settings = ms.filterMap Mention.setting := by
  unfold settingsOf
  rw [bind_eq_ok_iff]
  constructor
  · rintro ⟨s, hs, hok⟩
    obtain ⟨ps, ms, hps, hms, hmentions⟩ := (Scan.follows_of_all hs rfl).idle rfl
    obtain rfl := Except.ok.inj hps
    obtain rfl : s.mentions = ms := hmentions
    split at hok
    · simp at hok
    · next hnone =>
      exact ⟨_, (accepts_iff hms).2 (callError?_eq_none_iff.1 hnone), (Except.ok.inj hok).symm⟩
  · rintro ⟨ms, haccepts, rfl⟩
    -- only queries may be repeated, so there is one procedure at most
    have hfew : ms.countP Scan.isProcedure ≤ 1 :=
      haccepts.countP_name_le (show OptionName.procedure ≠ .query by decide)
    obtain ⟨s, hs, hmentions⟩ := Scan.exists_all_of_reads haccepts.reads (s := {}) rfl rfl (by simp)
      (by simpa using hfew)
    obtain rfl : s.mentions = ms := hmentions
    have hnone := callError?_eq_none_iff.2 ((accepts_iff haccepts.reads).1 haccepts)
    exact ⟨s, hs, by rw [hnone]⟩

end MayAlias
