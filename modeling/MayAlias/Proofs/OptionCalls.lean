import Mathlib.Data.List.Induction
import MayAlias.Proofs.Arguments

/-!
# Options over several calls

Options are set by any number of calls, of which those with an error count for nothing.  A view of
the options by name reduces every option but the queries to one fact: a setting replaces what is
held under its own name and nothing else.  A call gives an option at most one value, so after any
calls an option holds the value of the last call that mentions it.  Queries accumulate, and the flag
stays once it has been given.
-/

namespace MayAlias

/-- The option that a setting changes. -/
def Setting.name : Setting → OptionName
  | summary _ => .summary
  | maxPasses _ => .maxPasses
  | query _ => .query
  | statistics => .dumpStats
  | pointsTo _ => .dumpPts
  | dot _ => .dumpDot
  | facts _ => .dumpFacts
  | procedure _ => .procedure

/-- The query that a setting adds. -/
def Setting.query? : Setting → Option Query
  | query q => some q
  | _ => none

/-! ## What a call says -/

/-- The call succeeds and mentions the option. -/
def Mentions (args : List String) (name : OptionName) : Prop :=
  ∃ ms, Accepts args ms ∧ ∃ m ∈ ms, m.name = name

/-- The call succeeds and gives the setting. -/
def Gives (args : List String) (setting : Setting) : Prop :=
  ∃ ms, Accepts args ms ∧ ∃ m ∈ ms, m.setting = some setting

/-- The queries of a call in the order of its arguments; a call with an error has none. -/
def Asks (args : List String) (queries : List Query) : Prop :=
  (∃ ms, Accepts args ms ∧ queries = ms.filterMap fun m => m.setting.bind Setting.query?) ∨
    (¬ ∃ ms, Accepts args ms) ∧ queries = []

/-- The settings of a call; a call with an error has none. -/
def given (args : List String) : List Setting := (settingsOf args).toOption.getD []

/-- The last setting of an option. -/
def latest (name : OptionName) (settings : List Setting) : Option Setting :=
  (settings.filter fun s => s.name = name).getLast?

/-- The text given for an option becomes a setting of that option. -/
lemma name_of_setting {name : OptionName} {text : String} {setting : Setting}
    (h : name.setting text = .ok setting) : setting.name = name := by
  cases name with
  | summary | maxPasses | query =>
    simp only [OptionName.setting] at h
    split at h
    · obtain rfl := Except.ok.inj h
      rfl
    · simp at h
  | dumpPts | dumpDot | dumpFacts | dumpStats | procedure =>
    obtain rfl := Except.ok.inj h
    rfl

/-- The setting of a mention is one of the option mentioned. -/
lemma Reads.name_eq {args : List String} {ms : List Mention} (h : Reads args ms) :
    ∀ m ∈ ms, ∀ setting, m.setting = some setting → setting.name = m.name := by
  induction h with
  | nil => simp
  | attached _ hvalue _ ih => simpa [name_of_setting hvalue] using ih
  | separate _ _ hvalue _ ih => simpa [name_of_setting hvalue] using ih
  | bare _ _ _ ih => simpa using ih
  | flag _ ih => simpa [Setting.name] using ih
  | procedure _ _ ih => simpa [Setting.name] using ih
  | separator texts => simp [procedures, Setting.name]

section
variable {args : List String} {ms : List Mention} {name : OptionName} {setting : Setting}

/-- An accepted call gives the values of its mentions. -/
lemma given_of_accepts (h : Accepts args ms) : given args = ms.filterMap Mention.setting := by
  rw [given, settingsOf_eq_ok_iff.2 ⟨ms, h, rfl⟩]
  rfl

/-- A call with an error gives nothing. -/
lemma given_of_not_accepts (h : ¬ ∃ ms, Accepts args ms) : given args = [] := by
  cases hsettings : settingsOf args with
  | ok settings =>
    obtain ⟨ms, hms, _⟩ := settingsOf_eq_ok_iff.1 hsettings
    exact absurd ⟨ms, hms⟩ h
  | error e =>
    rw [given, hsettings]
    rfl

lemma accepts_of_mem_given (h : setting ∈ given args) : ∃ ms, Accepts args ms := by
  by_contra hnone
  simp [given_of_not_accepts hnone] at h

/-- What a call gives is among its settings. -/
lemma gives_iff : Gives args setting ↔ setting ∈ given args := by
  constructor
  · rintro ⟨ms, hms, m, hm, hsetting⟩
    rw [given_of_accepts hms]
    exact List.mem_filterMap.2 ⟨m, hm, hsetting⟩
  · intro h
    obtain ⟨ms, hms⟩ := accepts_of_mem_given h
    rw [given_of_accepts hms] at h
    exact ⟨ms, hms, List.mem_filterMap.1 h⟩

/-- An option that a successful call mentions is given a value by it. -/
lemma mentions_iff : Mentions args name ↔ ∃ setting, Gives args setting ∧ setting.name = name := by
  constructor
  · rintro ⟨ms, hms, m, hm, rfl⟩
    obtain ⟨m', hm', hname, hvalue⟩ := hms.valued m hm
    obtain ⟨setting, hsetting⟩ := Option.isSome_iff_exists.1 hvalue
    exact ⟨setting, ⟨ms, hms, m', hm', hsetting⟩,
      (hms.reads.name_eq m' hm' setting hsetting).trans hname⟩
  · rintro ⟨setting, ⟨ms, hms, m, hm, hsetting⟩, rfl⟩
    exact ⟨ms, hms, m, hm, (hms.reads.name_eq m hm setting hsetting).symm⟩

/-- Only queries are given more than once in a call. -/
lemma length_filter_given_le (args : List String) (hquery : name ≠ .query) :
    ((given args).filter fun s => s.name = name).length ≤ 1 := by
  by_cases h : ∃ ms, Accepts args ms
  · obtain ⟨ms, hms⟩ := h
    rw [given_of_accepts hms, ← List.countP_eq_length_filter, List.countP_filterMap]
    refine Nat.le_trans (List.countP_mono_left ?_) (hms.countP_name_le hquery)
    -- a value in a mention is one for the option mentioned
    intro m hm hsetting
    cases hvalue : m.setting with
    | none => simp [hvalue] at hsetting
    | some setting =>
      have hname := hms.reads.name_eq m hm setting hvalue
      simpa [hvalue, hname] using hsetting
  · simp [given_of_not_accepts h]

/-- A call gives an option other than the queries no second value. -/
lemma latest_given_eq_some_iff (hquery : setting.name ≠ .query) :
    latest setting.name (given args) = some setting ↔ Gives args setting := by
  rw [gives_iff]
  constructor
  · intro h
    exact (List.mem_filter.1 (List.mem_of_getLast? h)).1
  · intro h
    have hmem : setting ∈ (given args).filter fun s => s.name = setting.name := by simp [h]
    obtain ⟨only, honly⟩ := List.length_eq_one_iff.1
      (Nat.le_antisymm (length_filter_given_le args hquery) (List.length_pos_of_mem hmem))
    rw [honly, List.mem_singleton] at hmem
    rw [latest, honly, hmem, List.getLast?_singleton]

/-- An option without a value in a call is not mentioned there. -/
lemma latest_given_eq_none_iff : latest name (given args) = none ↔ ¬ Mentions args name := by
  simp [latest, mentions_iff, gives_iff]

/-- The queries of a call, in the order in which they are given. -/
lemma asks_iff {queries : List Query} :
    Asks args queries ↔ queries = (given args).filterMap Setting.query? := by
  constructor
  · rintro (⟨ms, hms, rfl⟩ | ⟨hnone, rfl⟩)
    · rw [given_of_accepts hms, List.filterMap_filterMap]
    · rw [given_of_not_accepts hnone, List.filterMap_nil]
  · rintro rfl
    by_cases h : ∃ ms, Accepts args ms
    · obtain ⟨ms, hms⟩ := h
      exact Or.inl ⟨ms, hms, by rw [given_of_accepts hms, List.filterMap_filterMap]⟩
    · exact Or.inr ⟨h, by rw [given_of_not_accepts h, List.filterMap_nil]⟩

end

/-! ## Settings in a row -/

namespace Options

/-- What is held under a name, as the setting that would put it there. -/
def setting? (o : Options) : OptionName → Option Setting
  | .summary => some (.summary o.summary)
  | .maxPasses => o.maxPasses.map .maxPasses
  | .query => o.queries.getLast?.map .query
  | .dumpPts => o.pointsTo.map .pointsTo
  | .dumpDot => o.dot.map .dot
  | .dumpFacts => o.facts.map .facts
  | .dumpStats => if o.statistics then some .statistics else none
  | .procedure => o.procedure.map .procedure

/-- The options after a call, which changes nothing if it fails. -/
def call (o : Options) (args : List String) : Options := (o.parse args).toOption.getD o

/-- The options after several calls. -/
def calls (o : Options) (all : List (List String)) : Options := all.foldl call o

/-- A setting replaces what is held under its own name and nothing else. -/
lemma setting?_set (o : Options) (s : Setting) (name : OptionName) :
    (o.set s).setting? name = if s.name = name then some s else o.setting? name := by
  cases s <;> cases name <;> try rfl
  -- What is left is a query put behind the others.
  simp [set, setting?, Setting.name]

/-- Of settings in a row, the latest one under a name is held. -/
lemma setting?_foldl (o : Options) (settings : List Setting) (name : OptionName) :
    (settings.foldl set o).setting? name = (latest name settings).or (o.setting? name) := by
  induction settings using List.reverseRecOn with
  | nil => rfl
  | append_singleton settings s ih =>
    rw [List.foldl_append, List.foldl_cons, List.foldl_nil, setting?_set, ih]
    by_cases hname : s.name = name
    · simp [latest, hname]
    · simp [latest, hname]

/-- Queries are appended to those there are. -/
lemma queries_foldl (o : Options) (settings : List Setting) :
    (settings.foldl set o).queries = o.queries ++ settings.filterMap Setting.query? := by
  induction settings generalizing o with
  | nil => simp
  | cons s settings ih =>
    rw [List.foldl_cons, ih]
    cases s <;> simp [set, Setting.query?, List.filterMap_cons]

/-- A call succeeds from any options if its arguments are accepted, and from none otherwise. -/
lemma exists_parse_eq_ok_iff (o : Options) (args : List String) :
    (∃ o', o.parse args = .ok o') ↔ ∃ ms, Accepts args ms := by
  constructor
  · rintro ⟨o', h⟩
    obtain ⟨settings, hsettings, _⟩ := bind_eq_ok_iff.1 h
    obtain ⟨ms, hms, _⟩ := settingsOf_eq_ok_iff.1 hsettings
    exact ⟨ms, hms⟩
  · rintro ⟨ms, hms⟩
    exact ⟨_, bind_eq_ok_iff.2 ⟨_, settingsOf_eq_ok_iff.2 ⟨ms, hms, rfl⟩, rfl⟩⟩

/-- A call sets one option after the other. -/
lemma call_eq_foldl (o : Options) (args : List String) :
    o.call args = (given args).foldl set o := by
  unfold call parse given
  cases settingsOf args with
  | ok settings => rfl
  | error e => rfl

lemma calls_concat (o : Options) (all : List (List String)) (args : List String) :
    o.calls (all ++ [args]) = (o.calls all).call args := by
  simp [calls]

end Options

/-! ## The last call to mention an option -/

/-- No successful call mentions the option. -/
def NeverMentioned (calls : List (List String)) (name : OptionName) : Prop :=
  ∀ args ∈ calls, ¬ Mentions args name

/-- The last successful call to mention the option gives it this value. -/
def LastGiven (calls : List (List String)) (setting : Setting) : Prop :=
  ∃ before args behind, calls = before ++ args :: behind ∧ Gives args setting ∧
    NeverMentioned behind setting.name

section
variable {calls : List (List String)} {args : List String} {name : OptionName} {setting : Setting}

lemma neverMentioned_concat :
    NeverMentioned (calls ++ [args]) name ↔ NeverMentioned calls name ∧ ¬ Mentions args name := by
  simp [NeverMentioned, or_imp, forall_and]

lemma not_lastGiven_nil : ¬ LastGiven [] setting := by
  rintro ⟨before, args, behind, h, _⟩
  simp at h

/-- One more call is the last to give a setting, or it does not mention the option. -/
lemma lastGiven_concat : LastGiven (calls ++ [args]) setting ↔
    Gives args setting ∨ LastGiven calls setting ∧ ¬ Mentions args setting.name := by
  constructor
  · rintro ⟨before, args', behind, h, hgives, hnever⟩
    -- the call that gives the setting is the last one, or it is among those before
    rcases List.eq_nil_or_concat behind with rfl | ⟨behind, last, rfl⟩
    · obtain ⟨_, rfl⟩ := List.append_singleton_inj.1 h
      exact Or.inl hgives
    · rw [List.concat_eq_append, ← List.cons_append, ← List.append_assoc] at h
      obtain ⟨rfl, rfl⟩ := List.append_singleton_inj.1 h
      rw [List.concat_eq_append, neverMentioned_concat] at hnever
      exact Or.inr ⟨⟨before, args', behind, rfl, hgives, hnever.1⟩, hnever.2⟩
  · rintro (hgives | ⟨⟨before, args', behind, rfl, hgives, hnever⟩, hlast⟩)
    · exact ⟨calls, args, [], rfl, hgives, by simp [NeverMentioned]⟩
    · exact ⟨before, args', behind ++ [args], by simp, hgives,
        neverMentioned_concat.2 ⟨hnever, hlast⟩⟩

end

namespace Options
variable (o : Options) (all : List (List String))

lemma setting?_call (args : List String) (name : OptionName) :
    (o.call args).setting? name = (latest name (given args)).or (o.setting? name) := by
  rw [call_eq_foldl, setting?_foldl]

/-- What was held at the start is kept until the option is mentioned. -/
lemma setting?_calls_eq_some_iff {setting : Setting} (hquery : setting.name ≠ .query) :
    (o.calls all).setting? setting.name = some setting ↔ LastGiven all setting ∨
      NeverMentioned all setting.name ∧ o.setting? setting.name = some setting := by
  induction all using List.reverseRecOn with
  | nil => simp [calls, not_lastGiven_nil, NeverMentioned]
  | append_singleton all args ih =>
    rw [calls_concat, setting?_call, lastGiven_concat, neverMentioned_concat,
      ← latest_given_eq_some_iff hquery, ← latest_given_eq_none_iff]
    -- either the last call leaves the option alone, or nothing before it counts
    cases hlatest : latest setting.name (given args) with
    | none => simp [ih]
    | some value => simp

/-- Nothing is held for an option that no call mentions. -/
lemma setting?_calls_eq_none_iff (name : OptionName) :
    (o.calls all).setting? name = none ↔ NeverMentioned all name ∧ o.setting? name = none := by
  induction all using List.reverseRecOn with
  | nil => simp [calls, NeverMentioned]
  | append_singleton all args ih =>
    rw [calls_concat, setting?_call, neverMentioned_concat, Option.or_eq_none_iff,
      latest_given_eq_none_iff, ih]
    tauto

/-- The queries of all calls are held, call by call. -/
lemma queries_calls : (o.calls all).queries =
    o.queries ++ (all.map fun args => (given args).filterMap Setting.query?).flatten := by
  induction all using List.reverseRecOn with
  | nil => simp [calls]
  | append_singleton all args ih => simp [calls_concat, call_eq_foldl, queries_foldl, ih]

/-! ## Calls from the defaults -/

/-- An option without a default has the value of the last call to mention it. -/
structure Remembers {α : Type} (calls : List (List String)) (name : OptionName)
    (put : α → Setting) (value : Option α) : Prop where
  some_iff : ∀ v, value = some v ↔ LastGiven calls (put v)
  none_iff : value = none ↔ NeverMentioned calls name

/-- The options that calls from the defaults lead to. -/
structure Accumulates (calls : List (List String)) (o : Options) : Prop where
  summary : ∀ kind, o.summary = kind ↔ LastGiven calls (.summary kind) ∨
    NeverMentioned calls .summary ∧ kind = .lastVisited
  maxPasses : Remembers calls .maxPasses .maxPasses o.maxPasses
  pointsTo : Remembers calls .dumpPts .pointsTo o.pointsTo
  dot : Remembers calls .dumpDot .dot o.dot
  facts : Remembers calls .dumpFacts .facts o.facts
  procedure : Remembers calls .procedure .procedure o.procedure
  statistics : o.statistics = true ↔ ∃ args ∈ calls, Mentions args .dumpStats
  /-- Call after call, and within a call in the order of its arguments. -/
  queries : ∀ queries, o.queries = queries ↔
    ∃ parts, List.Forall₂ Asks calls parts ∧ queries = parts.flatten

/-- `Remembers` from the view by name. -/
lemma remembers_of_setting? {α : Type} {name : OptionName} {put : α → Setting} {value : Option α}
    (hput : Function.Injective put) (hname : ∀ v, (put v).name = name) (hquery : name ≠ .query)
    (hstart : o.setting? name = none) (hview : (o.calls all).setting? name = value.map put) :
    Remembers all name put value where
  some_iff v := by
    obtain rfl := hname v
    calc value = some v
      _ ↔ value.map put = some (put v) := (Option.map_injective hput).eq_iff.symm
      _ ↔ LastGiven all (put v) := by
        rw [← hview, setting?_calls_eq_some_iff o all hquery]
        simp [hstart]
  none_iff := by
    calc value = none
      _ ↔ value.map put = none := Option.map_eq_none_iff.symm
      _ ↔ NeverMentioned all name := by
        rw [← hview, setting?_calls_eq_none_iff]
        simp [hstart]

/-- The summary rule has a default, which counts until the rule is mentioned. -/
lemma summary_calls_eq_iff (kind : SummaryRule) : (o.calls all).summary = kind ↔
    LastGiven all (.summary kind) ∨ NeverMentioned all .summary ∧ o.summary = kind := by
  have hquery : (Setting.summary kind).name ≠ .query := by simp [Setting.name]
  simpa [setting?, Setting.name] using setting?_calls_eq_some_iff o all hquery

/-- The flag is set once a call has given it. -/
lemma statistics_calls_iff : (o.calls all).statistics = true ↔
    (∃ args ∈ all, Mentions args .dumpStats) ∨ o.statistics = true := by
  have hnone := setting?_calls_eq_none_iff o all .dumpStats
  rw [← not_iff_not]
  simpa [setting?, NeverMentioned] using hnone

lemma forall₂_asks_iff {parts : List (List Query)} : List.Forall₂ Asks all parts ↔
    parts = all.map fun args => (given args).filterMap Setting.query? := by
  induction all generalizing parts with
  | nil => simp
  | cons args all ih => simp [List.forall₂_cons_left_iff, asks_iff, ih]

/-- Calls from the defaults leave each option with the value of the last call to mention it, the
flag as soon as one call has it, and all queries.  The calls that count are those whose arguments
are accepted as a whole, which are the calls that succeed. -/
theorem calls_accumulate (calls : List (List String)) :
    (∀ (o : Options) (args : List String),
      (∃ o', o.parse args = .ok o') ↔ ∃ ms, Accepts args ms) ∧
    Accumulates calls (({} : Options).calls calls) := by
  refine ⟨exists_parse_eq_ok_iff, ?_⟩
  constructor
  case summary =>
    intro kind
    rw [summary_calls_eq_iff, @eq_comm _ kind]
  -- five options are remembered alike
  case maxPasses =>
    exact remembers_of_setting? {} calls (fun _ _ => Setting.maxPasses.inj) (fun _ => rfl)
      (by decide) rfl rfl
  case pointsTo =>
    exact remembers_of_setting? {} calls (fun _ _ => Setting.pointsTo.inj) (fun _ => rfl)
      (by decide) rfl rfl
  case dot =>
    exact remembers_of_setting? {} calls (fun _ _ => Setting.dot.inj) (fun _ => rfl)
      (by decide) rfl rfl
  case facts =>
    exact remembers_of_setting? {} calls (fun _ _ => Setting.facts.inj) (fun _ => rfl)
      (by decide) rfl rfl
  case procedure =>
    exact remembers_of_setting? {} calls (fun _ _ => Setting.procedure.inj) (fun _ => rfl)
      (by decide) rfl rfl
  case statistics =>
    simp [statistics_calls_iff]
  case queries =>
    intro queries
    rw [queries_calls, List.nil_append]
    constructor
    · rintro rfl
      exact ⟨_, (forall₂_asks_iff calls).2 rfl, rfl⟩
    · rintro ⟨parts, hparts, rfl⟩
      rw [(forall₂_asks_iff calls).1 hparts]

-- The second call is lost as a whole, although its limit stands before the error.
example : ({} : Options).calls
    [["--max-passes=3", "--dump-stats"], ["--max-passes", "4", "-x"], ["proc.json"]] =
      { maxPasses := some 3, statistics := true, procedure := some "proc.json" } := by
  decide +kernel

end Options

end MayAlias
