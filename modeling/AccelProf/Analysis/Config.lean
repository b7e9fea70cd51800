import AccelProf.Data.Fallible
import AccelProf.Model.AnalyzerConfig

/-! Which analyzer configurations are accepted, and what becomes of the fields that are not
checked. -/

namespace Accel.Model
open Data

variable {name field : Str} {v : Option Json} {toks ds : List Str} {members : List (Str × Json)}
  {spec : Json}
  {drop : List Json} {a : Analyzer}

/-- A non-empty list of strings that are valid tokens. -/
def Tokens (v : Option Json) (toks : List Str) : Prop :=
  v = some (.arr (toks.map .str)) ∧ toks ≠ [] ∧ ∀ tok ∈ toks, validateToken tok = .ok ()

def KindIs (members : List (Str × Json)) (kind : Str) : Prop :=
  (Json.get members typeField).getD (.str commandType) = .str kind

def DropIs (members : List (Str × Json)) (ds : List Str) : Prop :=
  (Json.get members dropField).getD (.arr []) = .arr (ds.map .str)

def TimeoutIs (members : List (Str × Json)) (n : ℤ) : Prop :=
  (Json.get members timeoutField).getD (.int 60) = .int n

/-- The analyzer that a well-formed specification describes. -/
inductive Specifies (name : Str) : Json → Analyzer → Prop
  | bare {items : List Json} {argv : List Str} (hargv : Tokens (some (.arr items)) argv) :
      Specifies name (.arr items) (.command name argv [])
  | command {members : List (Str × Json)} {argv ds : List Str} (hkind : KindIs members commandType)
      (hargv : Tokens (Json.get members argvField) argv) (hdrop : DropIs members ds) :
      Specifies name (.obj members) (.command name argv (ds.map .str))
  | server {members : List (Str × Json)} {start query ds : List Str} {port n : ℤ}
      (hkind : KindIs members serverType) (hstart : Tokens (Json.get members startField) start)
      (hquery : Tokens (Json.get members queryField) query)
      (hport : Json.get members portField = some (.int port))
      (hdrop : DropIs members ds) (htimeout : TimeoutIs members n) :
      Specifies name (.obj members) (.server name start port query (ds.map .str) (.int n))

/-- What the code checks of a specification: its shape, its type and all fields but two. -/
inductive Checked : Json → Prop
  | bare {items : List Json} {argv : List Str} (hargv : Tokens (some (.arr items)) argv) :
      Checked (.arr items)
  | command {members : List (Str × Json)} {argv : List Str} (hkind : KindIs members commandType)
      (hargv : Tokens (Json.get members argvField) argv) : Checked (.obj members)
  | server {members : List (Str × Json)} {start query : List Str} {port : ℤ}
      (hkind : KindIs members serverType)
      (hstart : Tokens (Json.get members startField) start)
      (hquery : Tokens (Json.get members queryField) query)
      (hport : Json.get members portField = some (.int port)) : Checked (.obj members)

/-- The two fields that are not checked hold what they should: `drop_line_prefixes` a list of
strings, and `ready_timeout_seconds` of a server an integer. -/
def Typed : Json → Prop
  | .obj members => (∃ ds, DropIs members ds) ∧
      (KindIs members serverType → ∃ n, TimeoutIs members n)
  | _ => True

def Iterates : Json → Prop
  | .arr _ | .str _ | .obj _ => True
  | _ => False

def DropIterates : Json → Prop
  | .obj members => Iterates ((Json.get members dropField).getD (.arr []))
  | _ => True

theorem Specifies.checked (h : Specifies name spec a) : Checked spec := by
  cases h with
  | bare hargv => exact .bare hargv
  | command hkind hargv => exact .command hkind hargv
  | server hkind hstart hquery hport => exact .server hkind hstart hquery hport

theorem KindIs.unique {kind kind' : Str} (h : KindIs members kind) (h' : KindIs members kind') :
    kind = kind' :=
  Json.str.inj (Eq.trans (Eq.symm h) h')

theorem KindIs.not_server (h : KindIs members commandType) : ¬KindIs members serverType := by
  intro hserver
  have hsame : commandType = serverType := h.unique hserver
  exact absurd hsame (by decide)

theorem Specifies.typed (h : Specifies name spec a) : Typed spec := by
  cases h with
  | bare => trivial
  | command hkind _ hdrop => exact ⟨⟨_, hdrop⟩, fun hserver => absurd hserver hkind.not_server⟩
  | server _ _ _ _ hdrop htimeout => exact ⟨⟨_, hdrop⟩, fun _ => ⟨_, htimeout⟩⟩

theorem Typed.dropIterates (h : Typed spec) : DropIterates spec := by
  cases spec with
  | obj members =>
    obtain ⟨⟨ds, hds⟩, -⟩ := h
    have hds : (Json.get members dropField).getD (.arr []) = .arr (ds.map .str) := hds
    show Iterates _
    rw [hds]
    trivial
  | _ => trivial

section Fields

theorem mapM_str {items : List Json} : items.mapM Json.str? = some toks ↔
    items = toks.map .str := by
  induction items generalizing toks with
  | nil =>
    rw [List.mapM_nil]
    cases toks with
    | nil => exact iff_of_true rfl rfl
    | cons tok toks => exact iff_of_false (fun h => by cases h) fun h => by cases h
  | cons v items ih =>
    rw [List.mapM_cons, Option.bind_eq_bind, Option.bind_eq_some_iff]
    constructor
    · rintro ⟨tok, hv, hrest⟩
      obtain ⟨toks', htoks, heq⟩ := Option.bind_eq_some_iff.1 hrest
      obtain rfl : tok :: toks' = toks := Option.some.inj heq
      cases v with
      | str s =>
        obtain rfl : s = tok := Option.some.inj hv
        exact congrArg (Json.str s :: ·) (ih.1 htoks)
      | _ => cases hv
    · intro h
      cases toks with
      | nil => cases h
      | cons tok toks =>
        obtain ⟨rfl, hitems⟩ := List.cons.inj h
        exact ⟨tok, rfl, Option.bind_eq_some_iff.2 ⟨toks, ih.2 hitems, rfl⟩⟩

theorem tokens_arr {items : List Json} : Tokens (some (.arr items)) toks ↔
    items.mapM Json.str? = some toks ∧ toks ≠ [] ∧ validateArgvTemplate toks = .ok () := by
  have hvalid : validateArgvTemplate toks = .ok () ↔ ∀ tok ∈ toks, validateToken tok = .ok () :=
    forM_ok
  unfold Tokens
  rw [Option.some.injEq, Json.arr.injEq, mapM_str, hvalid]

/-- A template field is accepted exactly when it holds tokens, and refused with a `ValueError`. -/
theorem templateField_cases (name field : Str) (v : Option Json) :
    (∃ toks, Tokens v toks ∧ templateField name field v = .ok toks) ∨
      (∀ toks, ¬Tokens v toks) ∧
      ∃ problem, templateField name field v = .error (.valueError problem) := by
  match v with
  | none => exact .inr ⟨fun toks h => (nomatch h.1), ⟨_, rfl⟩⟩
  | some (.arr items) =>
    simp only [tokens_arr]
    cases hitems : items.mapM Json.str? with
    | none => exact .inr ⟨fun toks h => (nomatch h.1),
        ⟨.strings name field, by simp only [templateField, hitems]⟩⟩
    | some toks =>
      cases toks with
      | nil =>
        refine .inr ⟨fun toks h => h.2.1 (Option.some.inj h.1).symm, ⟨.strings name field, ?_⟩⟩
        simp only [templateField, hitems]
      | cons tok toks =>
        cases hvalid : validateArgvTemplate (tok :: toks) with
        | ok u =>
          refine .inl ⟨tok :: toks, ⟨rfl, by simp, hvalid⟩, ?_⟩
          simp only [templateField, hitems, hvalid]
        | error e =>
          refine .inr ⟨fun toks' h => ?_,
            ⟨.template e, by simp only [templateField, hitems, hvalid]⟩⟩
          obtain rfl : tok :: toks = toks' := Option.some.inj h.1
          cases hvalid.symm.trans h.2.2
  | some .null | some (.bool _) | some (.int _) | some (.float _) | some (.str _) | some (.obj _) =>
    exact .inr ⟨fun toks h => (nomatch h.1), ⟨_, rfl⟩⟩

end Fields

section Build

theorem pyTuple_error {w : Json} {e : LoadExc} (h : pyTuple w = .error e) :
    ∃ t, e = .typeError t := by
  cases w with
  | arr | str | obj => cases h
  | _ => exact ⟨_, (Except.error.inj h).symm⟩

theorem iterates_iff {w : Json} : Iterates w ↔ ∃ items, pyTuple w = .ok items := by
  cases w with
  | arr | str | obj => exact iff_of_true trivial ⟨_, rfl⟩
  | _ => exact iff_of_false id fun ⟨_, h⟩ => (nomatch h)

theorem DropIs.tuple (h : DropIs members ds)
    (hdrop : pyTuple ((Json.get members dropField).getD (.arr [])) = .ok drop) :
    drop = ds.map .str := by
  have hlist : (Json.get members dropField).getD (.arr []) = .arr (ds.map .str) := h
  rw [hlist] at hdrop
  exact (Except.ok.inj hdrop).symm

/-- What the code makes of an object once `drop_line_prefixes` has become a tuple. -/
theorem buildFromObject_cases (name : Str)
    (hdrop : pyTuple ((Json.get members dropField).getD (.arr [])) = .ok drop) :
    (KindIs members commandType ∧ buildFromObject name members = buildCommand name members drop) ∨
    (KindIs members serverType ∧ buildFromObject name members = buildServer name members drop) ∨
    (¬KindIs members commandType ∧ ¬KindIs members serverType ∧
      ∃ problem, buildFromObject name members = .error (.valueError problem)) := by
  unfold KindIs buildFromObject
  rw [hdrop]
  cases hkind : (Json.get members typeField).getD (.str commandType) with
  | str s =>
    rw [Json.str.injEq, Json.str.injEq]
    by_cases hcommand : s = commandType
    · exact .inl ⟨hcommand, if_pos hcommand⟩
    by_cases hserver : s = serverType
    · exact .inr (.inl ⟨hserver, (if_neg hcommand).trans (if_pos hserver)⟩)
    · exact .inr (.inr ⟨hcommand, hserver, ⟨_, (if_neg hcommand).trans (if_neg hserver)⟩⟩)
  | _ => exact .inr (.inr ⟨fun h => (nomatch h), fun h => (nomatch h), ⟨_, rfl⟩⟩)

/-- A command specification: a `ValueError` unless its `argv` holds tokens. -/
theorem buildCommand_cases
    (hdrop : pyTuple ((Json.get members dropField).getD (.arr [])) = .ok drop)
    (hkind : KindIs members commandType) :
    (¬Checked (.obj members) ∧
      ∃ problem, buildCommand name members drop = .error (.valueError problem)) ∨
    (Checked (.obj members) ∧ ∃ a, buildCommand name members drop = .ok a ∧
      (Specifies name (.obj members) a ↔ Typed (.obj members))) := by
  rcases templateField_cases name argvField (Json.get members argvField) with
    ⟨argv, hargv, hok⟩ | ⟨hnone, problem, herr⟩
  · refine .inr ⟨.command hkind hargv, .command name argv drop, by rw [buildCommand, hok]; rfl, ?_⟩
    refine ⟨Specifies.typed, ?_⟩
    rintro ⟨⟨ds, hds⟩, -⟩
    rw [hds.tuple hdrop]
    exact .command hkind hargv hds
  · refine .inl ⟨fun h => ?_, problem, by rw [buildCommand, herr]; rfl⟩
    cases h with
    | command _ hargv => exact hnone _ hargv
    | server hserver => exact hkind.not_server hserver

/-- A server specification: a `ValueError` unless `start` and `query` hold tokens and the port is an
integer. -/
theorem buildServer_cases (hdrop : pyTuple ((Json.get members dropField).getD (.arr [])) = .ok drop)
    (hkind : KindIs members serverType) :
    (¬Checked (.obj members) ∧
      ∃ problem, buildServer name members drop = .error (.valueError problem)) ∨
    (Checked (.obj members) ∧ ∃ a, buildServer name members drop = .ok a ∧
      (Specifies name (.obj members) a ↔ Typed (.obj members))) := by
  -- the fields are read in this order, and the first bad one is reported
  rcases templateField_cases name startField (Json.get members startField) with
    ⟨start, hstart, hstartOk⟩ | ⟨hnone, problem, herr⟩
  swap
  · refine .inl ⟨fun h => ?_, problem, by rw [buildServer, herr]; rfl⟩
    cases h with
    | command hcommand => exact hcommand.not_server hkind
    | server _ hstart => exact hnone _ hstart
  rcases templateField_cases name queryField (Json.get members queryField) with
    ⟨query, hquery, hqueryOk⟩ | ⟨hnone, problem, herr⟩
  swap
  · refine .inl ⟨fun h => ?_, problem, by rw [buildServer, hstartOk, herr]; rfl⟩
    cases h with
    | command hcommand => exact hcommand.not_server hkind
    | server _ _ hquery => exact hnone _ hquery
  by_cases hport : ∃ port, Json.get members portField = some (.int port)
  · obtain ⟨port, hport⟩ := hport
    have hok : buildServer name members drop =
        .ok (.server name start port query drop
          ((Json.get members timeoutField).getD (.int 60))) := by
      rw [buildServer, hstartOk, hqueryOk, hport]
      rfl
    refine .inr ⟨.server hkind hstart hquery hport, _, hok, ?_⟩
    refine ⟨Specifies.typed, ?_⟩
    rintro ⟨⟨ds, hds⟩, htimeout⟩
    obtain ⟨n, hn⟩ := htimeout hkind
    rw [hds.tuple hdrop, show (Json.get members timeoutField).getD (.int 60) = .int n from hn]
    exact .server hkind hstart hquery hport hds hn
  · refine .inl ⟨fun h => ?_, .readyPort name, ?_⟩
    · cases h with
      | command hcommand => exact hcommand.not_server hkind
      | server _ _ _ hport' => exact hport ⟨_, hport'⟩
    · rw [buildServer, hstartOk, hqueryOk]
      match hfield : Json.get members portField with
      | some (.int port) => exact absurd ⟨port, hfield⟩ hport
      | none => rfl
      | some .null | some (.bool _) | some (.float _) | some (.str _) | some (.arr _)
      | some (.obj _) =>
        rfl

theorem buildAnalyzer_cases (name : Str) (spec : Json) :
    (¬DropIterates spec ∧ ∃ t, buildAnalyzer name spec = .error (.typeError t)) ∨
    (DropIterates spec ∧ ¬Checked spec ∧
      ∃ problem, buildAnalyzer name spec = .error (.valueError problem)) ∨
    (DropIterates spec ∧ Checked spec ∧ ∃ a, buildAnalyzer name spec = .ok a ∧
      (Specifies name spec a ↔ Typed spec)) := by
  cases spec with
  | arr items =>
    refine .inr ?_
    -- a bare list is the object with that list as `argv`
    have hbuild : buildAnalyzer name (.arr items) =
        (templateField name argvField (some (.arr items))).map fun argv => .command name argv [] :=
          rfl
    rcases templateField_cases name argvField (some (.arr items)) with
      ⟨argv, hargv, hok⟩ | ⟨hnone, problem, herr⟩
    · refine .inr ⟨trivial, .bare hargv, .command name argv [], by rw [hbuild, hok]; rfl, ?_⟩
      exact iff_of_true (.bare hargv) trivial
    · refine .inl ⟨trivial, fun h => ?_, problem, by rw [hbuild, herr]; rfl⟩
      cases h with
      | bare hargv => exact hnone _ hargv
  | obj members =>
    by_cases hiter : DropIterates (.obj members)
    · refine .inr ?_
      obtain ⟨drop, hdrop⟩ := iterates_iff.1 hiter
      rcases buildFromObject_cases name hdrop with
        ⟨hkind, hbuild⟩ | ⟨hkind, hbuild⟩ | ⟨hc, hs, problem, herr⟩
      · exact (buildCommand_cases hdrop hkind).imp
          (fun ⟨h, p, hp⟩ => ⟨hiter, h, p, hbuild.trans hp⟩)
          fun ⟨h, a, ha, hiff⟩ => ⟨hiter, h, a, hbuild.trans ha, hiff⟩
      · exact (buildServer_cases hdrop hkind).imp (fun ⟨h, p, hp⟩ => ⟨hiter, h, p, hbuild.trans hp⟩)
          fun ⟨h, a, ha, hiff⟩ => ⟨hiter, h, a, hbuild.trans ha, hiff⟩
      · refine .inl ⟨hiter, fun h => ?_, problem, herr⟩
        cases h with
        | command hkind => exact hc hkind
        | server hkind => exact hs hkind
    · refine .inl ⟨hiter, ?_⟩
      cases hdrop : pyTuple ((Json.get members dropField).getD (.arr [])) with
      | ok drop => exact absurd (iterates_iff.2 ⟨drop, hdrop⟩) hiter
      | error e =>
        obtain ⟨t, rfl⟩ := pyTuple_error hdrop
        refine ⟨t, ?_⟩
        show buildFromObject name members = _
        rw [buildFromObject, hdrop]
        rfl
  | _ => exact .inr (.inl ⟨trivial, fun h => (nomatch h), ⟨_, rfl⟩⟩)

end Build

/-- The analyzers of a well-formed document: for each name of the object the one that its value
describes. -/
def WellFormedDoc (doc : Option Json) (analyzers : List (Str × Analyzer)) : Prop :=
  ∃ members, doc = some (.obj members) ∧
    List.Forall₂ (fun item a => a.1 = item.1 ∧ Specifies item.1 item.2 a.2)
      (Json.itemsOf members) analyzers

/-- A document is accepted exactly when it is well-formed, with the analyzers it describes; else it
is refused with a `ValueError`. -/
def LoadsProperly (doc : Option Json) : Except LoadExc (List (Str × Analyzer)) → Prop
  | .ok analyzers => WellFormedDoc doc analyzers
  | .error (.valueError _) => ¬∃ analyzers, WellFormedDoc doc analyzers
  | .error (.typeError _) => False

/-- The two unchecked fields are right in every value, or some value is refused for another reason
and up to there no `drop_line_prefixes` fails to be iterated. -/
def Refusable (items : List (Str × Json)) : Prop :=
  (∀ item ∈ items, Typed item.2) ∨ ∃ before item after, items = before ++ item :: after ∧
    ¬Checked item.2 ∧ ∀ i ∈ before ++ [item], DropIterates i.2

theorem entry_built {item b : Str × _}
    (h : ((buildAnalyzer item.1 item.2).map fun a => (item.1, a)) = .ok b) :
    DropIterates item.2 ∧ Checked item.2 ∧ b.1 = item.1 ∧
    (Specifies item.1 item.2 b.2 ↔ Typed item.2) := by
  obtain ⟨a, ha, rfl⟩ := except_map_ok.1 h
  rcases buildAnalyzer_cases item.1 item.2 with
    ⟨-, t, ht⟩ | ⟨-, -, p, hp⟩ | ⟨hiter, hchecked, a', ha', hiff⟩
  · cases ha.symm.trans ht
  · cases ha.symm.trans hp
  · obtain rfl := Except.ok.inj (ha.symm.trans ha')
    exact ⟨hiter, hchecked, rfl, hiff⟩

theorem entry_failed {item : Str × Json} {e : LoadExc}
    (h : ((buildAnalyzer item.1 item.2).map fun a => (item.1, a)) = .error e) :
    (¬DropIterates item.2 ∧ ∃ t, e = .typeError t) ∨
      (DropIterates item.2 ∧ ¬Checked item.2 ∧ ∃ problem, e = .valueError problem) := by
  rcases buildAnalyzer_cases item.1 item.2 with
    ⟨hiter, t, ht⟩ | ⟨hiter, hchecked, p, hp⟩ | ⟨-, -, a, ha, -⟩
  · rw [ht] at h
    exact .inl ⟨hiter, t, (Except.error.inj h).symm⟩
  · rw [hp] at h
    exact .inr ⟨hiter, hchecked, p, (Except.error.inj h).symm⟩
  · rw [ha] at h
    cases h

theorem wellFormedDoc_obj {analyzers : List (Str × Analyzer)} :
    WellFormedDoc (some (.obj members)) analyzers ↔
    List.Forall₂ (fun item a => a.1 = item.1 ∧ Specifies item.1 item.2 a.2)
    (Json.itemsOf members) analyzers := by
  constructor
  · rintro ⟨members', hsame, h⟩
    obtain rfl := Json.obj.inj (Option.some.inj hsame)
    exact h
  · exact fun h => ⟨members, rfl, h⟩

theorem loads_obj : LoadsProperly (some (.obj members))
    ((Json.itemsOf members).mapM fun item => (buildAnalyzer item.1 item.2).map fun a =>
      (item.1, a)) ↔
      Refusable (Json.itemsOf members) := by
  cases hrun : (Json.itemsOf members).mapM fun item => (buildAnalyzer item.1 item.2).map fun a =>
    (item.1, a) with
  | ok analyzers =>
    have hall := mapM_ok.1 hrun
    refine wellFormedDoc_obj.trans ⟨fun h => ?_, fun h => ?_⟩
    · left
      intro item hitem
      obtain ⟨a, -, -, hspec⟩ := exists_right_of_forall₂ h item hitem
      exact hspec.typed
    · rcases h with htyped | ⟨before, item, after, hsplit, hunchecked, -⟩
      · refine forall₂_imp_mem hall fun item hitem b hb => ?_
        obtain ⟨-, -, hname, hiff⟩ := entry_built hb
        exact ⟨hname, hiff.2 (htyped item hitem)⟩
      · obtain ⟨b, -, hb⟩ := exists_right_of_forall₂ hall item (hsplit ▸ by simp)
        exact absurd (entry_built hb).2.1 hunchecked
  | error e =>
    obtain ⟨before, item, after, hsplit, hbefore, hitem⟩ := mapM_error.1 hrun
    have hmem : item ∈ Json.itemsOf members := hsplit ▸ by simp
    rcases entry_failed hitem with ⟨hiter, t, rfl⟩ | ⟨hiter, hunchecked, p, rfl⟩
    · refine iff_of_false id ?_
      rintro (htyped | ⟨before', item', after', hsplit', hunchecked, hall⟩)
      · exact hiter (htyped item hmem).dropIterates
      -- of the two positions one comes first
      · rcases List.append_eq_append_iff.1 (hsplit.symm.trans hsplit') with
          ⟨mid, rfl, hmid⟩ | ⟨mid, rfl, hmid⟩
        · refine hiter (hall item ?_)
          cases mid with
          | nil => simp [(List.cons.inj hmid).1]
          | cons m mid => simp [(List.cons.inj hmid).1]
        · cases mid with
          | nil => exact hiter (hall item (by simp [(List.cons.inj hmid).1]))
          | cons m mid =>
            obtain ⟨b, hb⟩ := hbefore item' (by simp [(List.cons.inj hmid).1])
            exact hunchecked (entry_built hb).2.1
    · refine iff_of_true ?_ (.inr ⟨before, item, after, hsplit, hunchecked, ?_⟩)
      · rintro ⟨analyzers, h⟩
        obtain ⟨a, -, -, hspec⟩ := exists_right_of_forall₂ (wellFormedDoc_obj.1 h) item hmem
        exact hunchecked hspec.checked
      · intro i hi
        rcases List.mem_append.1 hi with hi | hi
        · obtain ⟨b, hb⟩ := hbefore i hi
          exact (entry_built hb).1
        · obtain rfl := List.mem_singleton.1 hi
          exact hiter

/-- A bare list is the object of type `command` with that list, and a document is accepted exactly
when it is well-formed, precisely when its values are right in the two unchecked fields or are
refused for another reason. -/
theorem config_proper_iff (loads : Str → Option Json) (raw : Str) :
    (∀ name items members, KindIs members commandType →
      Json.get members argvField = some (.arr items) →
        Json.get members dropField = none →
          buildAnalyzer name (.arr items) = buildAnalyzer name (.obj members)) ∧
      (LoadsProperly (loads raw) (parseAnalyzers loads raw) ↔
        ∀ members, loads raw = some (.obj members) → Refusable (Json.itemsOf members)) := by
  constructor
  · intro name items members hkind hargv hdrop
    have hbare : buildAnalyzer name (.arr items) = buildCommand name [(argvField, .arr items)] [] :=
      rfl
    have hobj : buildAnalyzer name (.obj members) = buildCommand name members [] := by
      show buildFromObject name members = _
      have hkind : (Json.get members typeField).getD (.str commandType) = .str commandType := hkind
      rw [buildFromObject, hdrop, hkind]
      rfl
    rw [hbare, hobj, buildCommand, buildCommand, hargv]
    rfl
  · unfold parseAnalyzers
    have hnone : ∀ doc, (∀ members, doc ≠ some (.obj members)) →
        ¬∃ analyzers, WellFormedDoc doc analyzers :=
      fun doc hdoc ⟨_, members, h, _⟩ => hdoc members h
    match hdoc : loads raw with
    | some (.obj members) =>
      simp only [Option.some.injEq, Json.obj.injEq, forall_eq']
      exact loads_obj
    | none => exact iff_of_true (hnone _ (by simp)) (by simp)
    | some .null | some (.bool _) | some (.int _) | some (.float _) | some (.str _)
    | some (.arr _) =>
      exact iff_of_true (hnone _ (by simp)) (by simp)

/-- A document whose only fault is a string in place of the list. -/
def stringDropText : Str :=
  "\x7b\"t\": \x7b\"argv\": [\"x\"], \"drop_line_prefixes\": \"ab\"\x7d\x7d".toList

def stringDropDoc : Json :=
  .obj [("t".toList, .obj [(argvField, .arr [.str "x".toList]), (dropField, .str "ab".toList)])]

/-- It is accepted, and the analyzer drops the lines that start with one of its letters. -/
theorem config_accepts_string : ∃ loads :
    Str → Option Json, loads stringDropText = some stringDropDoc ∧
    parseAnalyzers loads stringDropText =
      .ok [("t".toList, .command "t".toList ["x".toList] [.str ['a'], .str ['b']])] ∧
    ¬LoadsProperly (loads stringDropText) (parseAnalyzers loads stringDropText) := by
  obtain ⟨loads, hloads⟩ : ∃ loads : Str → Option Json, loads stringDropText = some stringDropDoc :=
    ⟨fun raw => if raw = stringDropText then some stringDropDoc else none, if_pos rfl⟩
  have hrun : parseAnalyzers loads stringDropText =
      .ok [("t".toList, .command "t".toList ["x".toList] [.str ['a'], .str ['b']])] := by
    unfold parseAnalyzers
    rw [hloads]
    rfl
  refine ⟨loads, hloads, hrun, ?_⟩
  rw [hrun, hloads]
  -- a list of strings is not the string
  intro h
  have hall := wellFormedDoc_obj.1 h
  obtain ⟨a, -, -, hspec⟩ := exists_right_of_forall₂ hall _ List.mem_cons_self
  obtain ⟨⟨ds, hds⟩, -⟩ := hspec.typed
  cases hds

end Accel.Model
