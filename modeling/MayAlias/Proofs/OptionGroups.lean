import Mathlib.Data.Nat.Digits.Defs
import MayAlias.Proofs.OptionCalls

/-!
# Arguments in groups

The arguments of a call fall into groups, each of which makes one setting: an option with its value,
attached or behind it, the flag, or the procedure.  `Group` says how a setting can be spelled,
without reading from left to right.  A call of groups in which nothing but queries occurs twice is
read as its settings in order, whatever the spelling.

Settings of different options do not interfere, so their order counts for the queries only, and
groups can be exchanged as long as the queries keep theirs.
-/

namespace MayAlias

/-! ## Spellings of a setting -/

/-- The text writes the number in decimal digits, possibly behind a plus sign. -/
def IsNumeral (text : String) (n : ℕ) : Prop :=
  ∃ digits : List ℕ, digits ≠ [] ∧ (∀ d ∈ digits, d < 10) ∧ n = Nat.ofDigits 10 digits.reverse ∧
    (text.toList = digits.map Nat.digitChar ∨ text.toList = '+' :: digits.map Nat.digitChar)

/-- The option with this name makes the setting when its value is this text. -/
inductive Setting.MadeBy : Setting → String → String → Prop
  | summary (kind : SummaryRule) : MadeBy (.summary kind) "summary" kind.name
  | maxPasses {limit : ℕ} {text : String} (htext : IsNumeral text limit) (hlimit : limit < 2 ^ 32) :
    MadeBy (.maxPasses limit) "max-passes" text
  | query {q : Query} {text : String} (htext : Query.parse text = .ok q) :
    MadeBy (.query q) "alias" text
  | pointsTo {path : String} (hpath : path ≠ "") : MadeBy (.pointsTo path) "dump-pts" path
  | dot {path : String} (hpath : path ≠ "") : MadeBy (.dot path) "dump-dot" path
  | facts {path : String} (hpath : path ≠ "") : MadeBy (.facts path) "dump-facts" path

/-- The arguments that belong together because they make one setting. -/
inductive Group : Setting → List String → Prop
  | attached {setting : Setting} {name text : String} (h : setting.MadeBy name text) :
    Group setting ["--" ++ name ++ "=" ++ text]
  | separate {setting : Setting} {name text : String} (h : setting.MadeBy name text)
    (hplain : Plain text) : Group setting ["--" ++ name, text]
  | flag : Group .statistics ["--dump-stats"]
  | procedure {path : String} (hpath : path ≠ "") (hdash : path.toList.head? ≠ some '-') :
    Group (.procedure path) [path]

/-- The arguments are groups in a row, which make these settings in order. -/
def Grouped (settings : List Setting) (args : List String) : Prop :=
  ∃ groups, List.Forall₂ Group settings groups ∧ args = groups.flatten

/-! ## Numbers -/

namespace OptionName

lemma digit?_digitChar {d : ℕ} (hd : d < 10) : digit? (Nat.digitChar d) = some d := by
  have hall : ∀ d < 10, digit? (Nat.digitChar d) = some d := by decide
  exact hall d hd

/-- Reading digits from the left gives the number that they write. -/
lemma natural?_digits {digits : List ℕ} (hne : digits ≠ []) (hdigits : ∀ d ∈ digits, d < 10) :
    natural? (digits.map Nat.digitChar) = some (Nat.ofDigits 10 digits.reverse) := by
  have hempty : (digits.map Nat.digitChar).isEmpty = false := by simpa using hne
  rw [natural?, hempty]
  clear hne hempty
  show (digits.map Nat.digitChar).foldl _ _ = _
  -- the last digit is read last and counts least
  induction digits using List.reverseRecOn with
  | nil => rfl
  | append_singleton digits d ih =>
    have hbefore : ∀ d ∈ digits, d < 10 := fun d hd => hdigits d (by simp [hd])
    rw [List.map_append, List.foldl_append, ih hbefore, List.reverse_append]
    simp [digit?_digitChar (hdigits d (by simp)), Nat.ofDigits_cons]
    omega

/-- Digits can stand by themselves or behind a plus sign. -/
lemma integer?_of_digits {digits : List ℕ} {cs : List Char} (hne : digits ≠ [])
    (hdigits : ∀ d ∈ digits, d < 10)
    (hcs : cs = digits.map Nat.digitChar ∨ cs = '+' :: digits.map Nat.digitChar) :
    integer? cs = some ((Nat.ofDigits 10 digits.reverse : ℕ) : ℤ) := by
  have hnatural := natural?_digits hne hdigits
  rcases hcs with rfl | rfl
  · have hsign : ∀ d < 10, Nat.digitChar d ≠ '+' ∧ Nat.digitChar d ≠ '-' := by decide
    obtain ⟨d, digits, rfl⟩ := List.exists_cons_of_ne_nil hne
    obtain ⟨hplus, hminus⟩ := hsign d (hdigits d (by simp))
    rw [List.map_cons] at hnatural ⊢
    unfold integer?
    split
    · next h => exact absurd (List.cons.inj h).1 hplus
    · next h => exact absurd (List.cons.inj h).1 hminus
    · rw [hnatural]
      rfl
  · rw [integer?, hnatural]
    rfl

/-- A numeral below `2 ^ 32` is accepted as the limit on passes, with its sign and its leading
zeros. -/
lemma passLimit?_of_isNumeral {text : String} {n : ℕ} (h : IsNumeral text n) (hn : n < 2 ^ 32) :
    passLimit? text = some n := by
  obtain ⟨digits, hne, hdigits, hvalue, htext⟩ := h
  have hinteger := integer?_of_digits hne hdigits htext
  rw [← hvalue] at hinteger
  have hrange : (0 : ℤ) ≤ n ∧ (n : ℤ) < 4294967296 := by omega
  rw [passLimit?, hinteger]
  show (if (0 : ℤ) ≤ n ∧ (n : ℤ) < 4294967296 then some (n : ℤ).toNat else none) = some n
  rw [if_pos hrange, Int.toNat_natCast]

end OptionName

/-! ## Reading groups -/

/-- A setting that is made by a value has an option that takes one. -/
lemma Setting.MadeBy.mem_valued {s : Setting} {name text : String} (h : s.MadeBy name text) :
    (name, s.name) ∈ OptionName.valued := by
  cases h <;> simp [OptionName.valued, Setting.name]

/-- The value is read as the setting that it makes. -/
lemma Setting.MadeBy.setting_eq {s : Setting} {name text : String} (h : s.MadeBy name text) :
    s.name.setting text = .ok s := by
  cases h with
  | summary kind => cases kind <;> rfl
  | maxPasses htext hlimit =>
    show OptionName.setting .maxPasses text = _
    rw [OptionName.setting, OptionName.passLimit?_of_isNumeral htext hlimit]
  | query htext =>
    show OptionName.setting .query text = _
    rw [OptionName.setting, htext]
  | pointsTo _ | dot _ | facts _ => rfl

/-- What is mentioned by a group that makes the setting. -/
def Setting.mention (s : Setting) : Mention := ⟨s.name, some s⟩

/-- A group in front of other arguments is read as its setting. -/
lemma Group.reads {s : Setting} {group rest : List String} {ms : List Mention} (h : Group s group)
    (hrest : Reads rest ms) : Reads (group ++ rest) (s.mention :: ms) := by
  cases h with
  | attached h => exact .attached h.mem_valued h.setting_eq hrest
  | separate h hplain => exact .separate h.mem_valued hplain h.setting_eq hrest
  | flag => exact .flag hrest
  | procedure _ hdash => exact .procedure (Or.inr hdash) hrest

/-- A call of groups is read group by group. -/
lemma Grouped.reads {settings : List Setting} {args : List String} (h : Grouped settings args) :
    Reads args (settings.map Setting.mention) := by
  obtain ⟨groups, hgroups, rfl⟩ := h
  induction hgroups with
  | nil => exact .nil
  | cons hgroup _ ih => exact hgroup.reads ih

/-- Only queries are set more than once. -/
def SetOnce (settings : List Setting) : Prop :=
  ∀ name ≠ OptionName.query, settings.countP (fun s => s.name = name) ≤ 1

/-- A call in which nothing but queries is set twice is accepted. -/
lemma Grouped.accepts {settings : List Setting} {args : List String} (h : Grouped settings args)
    (honce : SetOnce settings) : Accepts args (settings.map Setting.mention) where
  reads := h.reads
  valued := by
    intro m hm
    obtain ⟨s, _, rfl⟩ := List.mem_map.1 hm
    exact ⟨_, hm, rfl, rfl⟩
  once := by
    intro m hm hquery
    have hle := honce m.name hquery
    have hpos : 0 < (settings.map Setting.mention).countP (fun m' => m'.name = m.name) :=
      List.countP_pos_iff.2 ⟨m, hm, by simp⟩
    -- each setting mentions its own option once
    have hcount : (settings.map Setting.mention).countP (fun m' => m'.name = m.name) =
        settings.countP (fun s => s.name = m.name) := List.countP_map
    omega

/-- Such a call makes its settings in order. -/
lemma Grouped.parse_eq {settings : List Setting} {args : List String} (h : Grouped settings args)
    (honce : SetOnce settings) (o : Options) :
    o.parse args = .ok (settings.foldl Options.set o) := by
  have hsettings : settings = (settings.map Setting.mention).filterMap Mention.setting := by
    rw [List.filterMap_map]
    exact List.filterMap_some.symm
  have hok : settingsOf args = .ok settings :=
    settingsOf_eq_ok_iff.2 ⟨_, h.accepts honce, hsettings⟩
  rw [Options.parse, hok]
  rfl

/-! ## Exchanging settings -/

/-- Whether anything is set twice does not depend on the order. -/
lemma SetOnce.perm {settings settings' : List Setting} (h : SetOnce settings)
    (hperm : settings.Perm settings') : SetOnce settings' := by
  intro name hquery
  rw [← hperm.countP_eq]
  exact h name hquery

/-- Of at most one setting it does not matter where it stands. -/
lemma SetOnce.latest_eq {settings settings' : List Setting} (h : SetOnce settings)
    (hperm : settings.Perm settings') {name : OptionName} (hquery : name ≠ .query) :
    latest name settings = latest name settings' := by
  have hfilter := hperm.filter fun s => s.name = name
  have hlength : (settings.filter fun s => s.name = name).length ≤ 1 := by
    rw [← List.countP_eq_length_filter]
    exact h name hquery
  unfold latest
  generalize settings.filter (fun s => s.name = name) = matching at hfilter hlength
  rcases matching with _ | ⟨s, _ | ⟨t, rest⟩⟩
  · rw [hfilter.nil_eq]
  · rw [List.singleton_perm.1 hfilter]
  · simp at hlength

namespace Options

/-- Options are the queries and what is held under the other names. -/
lemma ext_setting? {o o' : Options} (hqueries : o.queries = o'.queries)
    (hsetting : ∀ name, name ≠ .query → o.setting? name = o'.setting? name) : o = o' := by
  -- each option but the queries shows its value in the setting that it makes
  have hput : ∀ {α : Type} {put : α → Setting}, Function.Injective put → ∀ {v v' : Option α},
      v.map put = v'.map put → v = v' := fun hinj _ _ h => Option.map_injective hinj h
  have hsummary : o.summary = o'.summary := by
    simpa [setting?] using hsetting .summary (by decide)
  have hstatistics : o.statistics = o'.statistics := by
    have h := hsetting .dumpStats (by decide)
    cases ho : o.statistics <;> cases ho' : o'.statistics <;> simp [setting?, ho, ho'] at h ⊢
  have hmaxPasses := hput (fun _ _ => Setting.maxPasses.inj) (hsetting .maxPasses (by decide))
  have hpointsTo := hput (fun _ _ => Setting.pointsTo.inj) (hsetting .dumpPts (by decide))
  have hdot := hput (fun _ _ => Setting.dot.inj) (hsetting .dumpDot (by decide))
  have hfacts := hput (fun _ _ => Setting.facts.inj) (hsetting .dumpFacts (by decide))
  have hprocedure := hput (fun _ _ => Setting.procedure.inj) (hsetting .procedure (by decide))
  cases o
  cases o'
  rw [Options.mk.injEq]
  exact ⟨hsummary, hmaxPasses, hqueries, hstatistics, hpointsTo, hdot, hfacts, hprocedure⟩

/-- Settings in another order lead to the same options when the queries keep their order. -/
lemma foldl_set_perm {settings settings' : List Setting} (honce : SetOnce settings)
    (hperm : settings.Perm settings')
    (hqueries : settings.filterMap Setting.query? = settings'.filterMap Setting.query?)
    (o : Options) : settings.foldl set o = settings'.foldl set o := by
  apply ext_setting?
  · rw [queries_foldl, queries_foldl, hqueries]
  · intro name hquery
    rw [setting?_foldl, setting?_foldl, honce.latest_eq hperm hquery]

/-- A call made of groups succeeds from any options and makes its settings, and so does every other
call with the same groups in any spelling and any order that keeps the queries in theirs: the two
lead to the same options. -/
theorem grouped_calls_agree {settings settings' : List Setting} {args args' : List String}
    (hargs : Grouped settings args) (hargs' : Grouped settings' args') (honce : SetOnce settings)
    (hperm : settings.Perm settings')
    (hqueries : settings.filterMap Setting.query? = settings'.filterMap Setting.query?)
    (o : Options) :
    o.parse args = .ok (settings.foldl set o) ∧ o.parse args' = .ok (settings.foldl set o) := by
  refine ⟨hargs.parse_eq honce o, ?_⟩
  rw [foldl_set_perm honce hperm hqueries o]
  exact hargs'.parse_eq (honce.perm hperm) o

/-- Six groups, and the same groups in another order and spelled differently: the limit has leading
zeros, the path starts with a dash, and the first query is written with blanks. -/
theorem grouped_calls_agree_shuffled :
    ∃ o o' : Options, o.queries = [.vars "u" "v"] ∧
      o.parse ["--max-passes=007", "--alias", " a~b ", "--dump-stats", "--dump-pts=-x",
        "--alias=c.f~d", "p.json"] = .ok o' ∧
      o.parse ["p.json", "--alias= a~b ", "--dump-pts=-x", "--max-passes", "+7", "--alias", "c.f~d",
        "--dump-stats"] = .ok o' ∧
      o'.maxPasses = some 7 ∧
      o'.queries = [.vars "u" "v", .vars "a" "b", .field "c" "f" "d"] := by
  have hlimit : Setting.MadeBy (.maxPasses 7) "max-passes" "007" :=
    .maxPasses ⟨[0, 0, 7], by decide, by decide, by decide, Or.inl (by decide)⟩ (by decide)
  have hplus : Setting.MadeBy (.maxPasses 7) "max-passes" "+7" :=
    .maxPasses ⟨[7], by decide, by decide, by decide, Or.inr (by decide)⟩ (by decide)
  have hvars : Setting.MadeBy (.query (.vars "a" "b")) "alias" " a~b " := .query (by decide +kernel)
  have hfield : Setting.MadeBy (.query (.field "c" "f" "d")) "alias" "c.f~d" :=
    .query (by decide +kernel)
  have hpath : Setting.MadeBy (.pointsTo "-x") "dump-pts" "-x" := .pointsTo (by decide)
  have hprocedure : Group (.procedure "p.json") ["p.json"] := .procedure (by decide) (by decide)
  have hargs : Grouped [.maxPasses 7, .query (.vars "a" "b"), .statistics, .pointsTo "-x",
      .query (.field "c" "f" "d"), .procedure "p.json"]
      ["--max-passes=007", "--alias", " a~b ", "--dump-stats", "--dump-pts=-x", "--alias=c.f~d",
        "p.json"] :=
    ⟨_, .cons (.attached hlimit) (.cons (.separate hvars (Or.inr (by decide))) (.cons .flag
      (.cons (.attached hpath) (.cons (.attached hfield) (.cons hprocedure .nil))))), rfl⟩
  have hargs' : Grouped [.procedure "p.json", .query (.vars "a" "b"), .pointsTo "-x", .maxPasses 7,
      .query (.field "c" "f" "d"), .statistics]
      ["p.json", "--alias= a~b ", "--dump-pts=-x", "--max-passes", "+7", "--alias", "c.f~d",
        "--dump-stats"] :=
    ⟨_, .cons hprocedure (.cons (.attached hvars) (.cons (.attached hpath)
      (.cons (.separate hplus (Or.inr (by decide))) (.cons (.separate hfield (Or.inr (by decide)))
        (.cons .flag .nil))))), rfl⟩
  have honce : SetOnce [.maxPasses 7, .query (.vars "a" "b"), .statistics, .pointsTo "-x",
      .query (.field "c" "f" "d"), .procedure "p.json"] := by
    intro name hquery
    cases name with
    | query => exact absurd rfl hquery
    | _ => decide
  obtain ⟨h, h'⟩ := grouped_calls_agree hargs hargs' honce (by decide) (by decide)
    { queries := [.vars "u" "v"] }
  exact ⟨_, _, rfl, h, h', rfl, rfl⟩

end Options

end MayAlias
