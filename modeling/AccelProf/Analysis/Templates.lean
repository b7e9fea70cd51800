import AccelProf.Analysis.Matches

/-! What a registered argv template becomes: which placeholders are filled, and when none is
left. -/

namespace Accel.Model
open Data

variable {fs : FileSystem} {runDir tmpDir tok glob : Str} {s r t : Str}

/-- No brace that a tool could take for a placeholder. -/
def BraceFree (s : Str) : Prop := '{' ∉ s ∧ '}' ∉ s

instance (s : Str) : Decidable (BraceFree s) := inferInstanceAs (Decidable (_ ∧ _))

theorem braceFree_append : BraceFree (s ++ t) ↔ BraceFree s ∧ BraceFree t := by
  simp only [BraceFree, List.mem_append]
  tauto

theorem braceFree_cons {c : Char} : BraceFree (c :: s) ↔ (c ≠ '{' ∧ c ≠ '}') ∧ BraceFree s := by
  simp only [BraceFree, List.mem_cons, not_or]
  tauto

theorem BraceFree.sublist (h : BraceFree t) (hs : List.Sublist s t) : BraceFree s :=
  ⟨fun hc => h.1 (hs.subset hc), fun hc => h.2 (hs.subset hc)⟩

section Marks

/-- Both directories, each for its placeholder. -/
def marks (runDir tmpDir : Str) : List (Rule Char) := [(dirMark, runDir), (tmpMark, tmpDir)]

/-- The token with each of its placeholders replaced, in one pass. -/
def filled (runDir tmpDir tok : Str) : Str := replaceAll (marks runDir tmpDir) tok

theorem dirMark_eq : dirMark = '{' :: ['d', 'i', 'r', '}'] := rfl
theorem tmpMark_eq : tmpMark = '{' :: ['t', 'm', 'p', '}'] := rfl

theorem not_dirMark_prefix (s : Str) : ¬ dirMark <+: tmpMark ++ s := by
  rw [dirMark_eq, tmpMark_eq, List.cons_append, List.cons_append, List.cons_prefix_cons,
    List.cons_prefix_cons]
  simp

theorem filled_dir (s : Str) : filled r t (dirMark ++ s) = r ++ filled r t s := by
  have hfind : ((marks r t).find? fun r' => r'.1.isPrefixOf (dirMark ++ s)) = some (dirMark, r) :=
    List.find?_cons_of_pos (List.isPrefixOf_iff_prefix.2 (List.prefix_append _ _))
  exact replaceAll_of_find (r := (dirMark, r)) (by simp [dirMark_eq]) hfind

theorem filled_tmp (s : Str) : filled r t (tmpMark ++ s) = t ++ filled r t s := by
  have hfind : ((marks r t).find? fun r' => r'.1.isPrefixOf (tmpMark ++ s)) =
      some (tmpMark, t) := by
    have hno : dirMark.isPrefixOf (tmpMark ++ s) = false :=
      Bool.eq_false_iff.2 fun h => not_dirMark_prefix s (List.isPrefixOf_iff_prefix.1 h)
    have hyes : tmpMark.isPrefixOf (tmpMark ++ s) = true :=
      List.isPrefixOf_iff_prefix.2 (List.prefix_append _ _)
    simp only [marks, List.find?_cons, hno, hyes]
  exact replaceAll_of_find (r := (tmpMark, t)) (by simp [tmpMark_eq]) hfind

theorem filled_cons {c : Char}
    (h : c ≠ '{') (s : Str) : filled r t (c :: s) = c :: filled r t s := by
  refine replaceAll_cons_of_head fun r' hr => ?_
  simp only [marks, List.mem_cons, List.not_mem_nil, or_false] at hr
  rcases hr with rfl | rfl
  · exact ⟨'{', _, rfl, h.symm⟩
  · exact ⟨'{', _, rfl, h.symm⟩

theorem replace_mark_front {w : Str} (hw : w ≠ []) (s : Str) :
    replace (w ++ s) w r = r ++ replace s w r := by
  have hfind : (([(w, r)] : List (Rule Char)).find? fun r' => r'.1.isPrefixOf (w ++ s)) =
      some (w, r) :=
    List.find?_cons_of_pos (List.isPrefixOf_iff_prefix.2 (List.prefix_append _ _))
  exact replaceAll_of_find (r := (w, r)) hw hfind

/-- Text without an opening brace is passed over. -/
theorem replace_append {w ws : Str} (hw : w = '{' :: ws) (ht : '{' ∉ t) (s : Str) :
    replace (t ++ s) w r = t ++ replace s w r := by
  refine replaceAll_append_of_head fun r' hr => ?_
  rw [List.mem_singleton.1 hr]
  exact ⟨'{', ws, hw, ht⟩

theorem replace_dirMark_tmpMark (s : Str) :
    replace (tmpMark ++ s) dirMark r = tmpMark ++ replace s dirMark r := by
  have hfront :
      replace (tmpMark ++ s) dirMark r = '{' :: replace (['t', 'm', 'p', '}'] ++ s) dirMark r := by
    refine replaceAll_cons_of_none fun r' hr => ?_
    rw [List.mem_singleton.1 hr]
    exact not_dirMark_prefix s
  rw [hfront, replace_append dirMark_eq (by decide)]
  rfl

/-- Text, and placeholders that neither overlap nor stand inside each other. -/
inductive Plain : Str → Prop
  | nil : Plain []
  | char {s : Str} (c : Char) (h₁ : c ≠ '{') (h₂ : c ≠ '}') (h : Plain s) : Plain (c :: s)
  | dir {s : Str} (h : Plain s) : Plain (dirMark ++ s)
  | tmp {s : Str} (h : Plain s) : Plain (tmpMark ++ s)

/-- Such a token is what one pass leaves no brace of. -/
theorem plain_of_filled (h : BraceFree (filled [] [] s)) : Plain s := by
  induction hn : s.length using Nat.strong_induction_on generalizing s with
  | _ n ih =>
    cases s with
    | nil => exact .nil
    | cons c s =>
      by_cases hd : dirMark <+: c :: s
      · obtain ⟨u, hu⟩ := hd
        rw [← hu] at h hn ⊢
        rw [filled_dir, List.nil_append] at h
        exact .dir (ih u.length (by rw [← hn, List.length_append, dirMark_eq]; simp) h rfl)
      by_cases ht : tmpMark <+: c :: s
      · obtain ⟨u, hu⟩ := ht
        rw [← hu] at h hn ⊢
        rw [filled_tmp, List.nil_append] at h
        exact .tmp (ih u.length (by rw [← hn, List.length_append, tmpMark_eq]; simp) h rfl)
      have hcons : filled [] [] (c :: s) = c :: filled [] [] s := by
        refine replaceAll_cons_of_none fun r' hr => ?_
        simp only [marks, List.mem_cons, List.not_mem_nil, or_false] at hr
        rcases hr with rfl | rfl
        · exact hd
        · exact ht
      rw [hcons, braceFree_cons] at h
      exact .char c h.1.1 h.1.2 (ih s.length (by rw [← hn]; simp) h.2 rfl)

/-- On such a token the two replacements of the code are one pass. -/
theorem Plain.replace_eq (h : Plain s) (hr : BraceFree r) :
    replace (replace s dirMark r) tmpMark t = filled r t s := by
  induction h with
  | nil => rfl
  | @char s c h₁ h₂ h ih =>
    have hc : ∀ {w ws x u : Str}, w = '{' :: ws → replace (c :: u) w x = c :: replace u w x :=
      fun hw =>
      replace_append (t := [c]) hw (by simpa using h₁.symm) _
    rw [filled_cons h₁, hc dirMark_eq, hc tmpMark_eq, ih]
  | dir h ih =>
    rw [filled_dir, replace_mark_front (by simp [dirMark_eq]), replace_append tmpMark_eq hr.1, ih]
  | tmp h ih =>
    rw [filled_tmp, replace_dirMark_tmpMark, replace_mark_front (by simp [tmpMark_eq]), ih]

theorem Plain.braceFree (h : Plain s) (hr : BraceFree r) (ht : BraceFree t) :
    BraceFree (filled r t s) := by
  induction h with
  | nil => exact ⟨by simp [filled], by simp [filled]⟩
  | char c h₁ h₂ h ih =>
    rw [filled_cons h₁, braceFree_cons]
    exact ⟨⟨h₁, h₂⟩, ih⟩
  | dir h ih =>
    rw [filled_dir, braceFree_append]
    exact ⟨hr, ih⟩
  | tmp h ih =>
    rw [filled_tmp, braceFree_append]
    exact ⟨ht, ih⟩

/-- What one pass leaves besides the directories is there whatever they are. -/
theorem braceFree_of_filled (h : BraceFree (filled r t s)) : BraceFree (filled [] [] s) :=
  h.sublist (replaceAll_erased_sublist (marks r t) s)

end Marks

section Paths

theorem mem_joinSlash {parts : List Str} {c : Char} (h : c ∈ (parts.intersperse ['/']).flatten) :
    c = '/' ∨ ∃ q ∈ parts, c ∈ q := by
  induction parts with
  | nil => cases h
  | cons a parts ih =>
    cases parts with
    | nil => exact .inr ⟨a, by simp, by simpa using h⟩
    | cons b parts =>
      rw [List.intersperse_cons_cons, List.flatten_cons, List.flatten_cons, List.mem_append,
        List.mem_append,
        List.mem_singleton] at h
      rcases h with h | h | h
      · exact .inr ⟨a, List.mem_cons_self, h⟩
      · exact .inl h
      · exact (ih h).imp_right fun ⟨q, hq, hc⟩ => ⟨q, List.mem_cons_of_mem _ hq, hc⟩

theorem mem_joinSlash_of_mem {parts : List Str} {q : Str} {c : Char} (hq : q ∈ parts) (hc : c ∈ q) :
    c ∈ (parts.intersperse ['/']).flatten := by
  induction parts with
  | nil => cases hq
  | cons a parts ih =>
    cases parts with
    | nil =>
      obtain rfl := List.mem_singleton.1 hq
      simpa using hc
    | cons b parts =>
      rw [List.intersperse_cons_cons, List.flatten_cons, List.flatten_cons, List.mem_append,
        List.mem_append]
      rcases List.mem_cons.1 hq with rfl | hq
      · exact .inl hc
      · exact .inr (.inr (ih hq))

theorem mem_of_mem_splitOn {q : Str} {c : Char} (hq : q ∈ s.splitOn '/') (hc : c ∈ q) : c ∈ s := by
  have hmem := mem_joinSlash_of_mem hq hc
  have hjoin : ['/'].intercalate (s.splitOn '/') = s := List.intercalate_splitOn '/'
  unfold List.intercalate at hjoin
  rwa [hjoin] at hmem

theorem parse_root_braceFree (p : Str) : BraceFree (PurePath.parse p).root := by
  unfold PurePath.parse
  simp only
  split_ifs <;> decide

theorem braceFree_str {d : PurePath} (hroot : BraceFree d.root) (h : ∀ q ∈ d.parts, BraceFree q) :
    BraceFree d.str := by
  have hjoin : BraceFree (d.parts.intersperse ['/']).flatten := by
    constructor
    · intro hc
      rcases mem_joinSlash hc with hc | ⟨q, hq, hc⟩
      · cases hc
      · exact (h q hq).1 hc
    · intro hc
      rcases mem_joinSlash hc with hc | ⟨q, hq, hc⟩
      · cases hc
      · exact (h q hq).2 hc
  unfold PurePath.str
  split_ifs
  · decide
  · exact braceFree_append.2 ⟨hroot, hjoin⟩

/-- A file whose names have no braces is found under a path without braces. -/
theorem braceFree_of_mem_findMatches {found : List Str} {p : Str} (hrun : BraceFree runDir)
    (hfs : fs.root.Valid BraceFree) (h : findMatches fs runDir glob = .ok found) (hp : p ∈ found) :
    BraceFree p := by
  obtain ⟨-, names, hnames, rfl⟩ := mem_findMatches hfs h hp
  refine braceFree_str (parse_root_braceFree runDir) fun q hq => ?_
  rcases List.mem_append.1 hq with hq | hq
  · have hsplit := (List.mem_filter.1 hq).1
    exact ⟨fun hc => hrun.1 (mem_of_mem_splitOn hsplit hc),
      fun hc => hrun.2 (mem_of_mem_splitOn hsplit hc)⟩
  · rcases hnames q hq with h | rfl
    · exact h
    · decide

end Paths

/-- What a token of a template may become: an embedding token itself with its placeholders filled, a
selector the paths of matching files, any other token itself. -/
inductive Expands (fs : FileSystem) (runDir tmpDir tok : Str) : List Str → Prop
  | embed (h : embeds tok = true) : Expands fs runDir tmpDir tok [filled runDir tmpDir tok]
  | file {glob p : Str} (h : embeds tok = false) (hs : selector fileWord tok = some glob)
      (hp : Matches fs runDir glob p) : Expands fs runDir tmpDir tok [p]
  | files {glob : Str} {paths : List Str} (h : embeds tok = false)
      (hs : selector filesWord tok = some glob)
      (hne : paths ≠ []) (hp : ∀ p ∈ paths, Matches fs runDir glob p) :
      Expands fs runDir tmpDir tok paths
  | literal (h : embeds tok = false) (h₁ : selector fileWord tok = none)
      (h₂ : selector filesWord tok = none) :
      Expands fs runDir tmpDir tok [tok]

/-- The call either raises, or every token has become what it stands for and no brace is left. -/
def Expanded (fs : FileSystem) (template : List Str) (runDir tmpDir : Str) :
    Except PyExc (List Str) → Prop
  | .error _ => True
  | .ok argv => (∀ item ∈ argv, BraceFree item) ∧
      ∃ parts, argv = parts.flatten ∧ List.Forall₂ (Expands fs runDir tmpDir) template parts

/-- A selector whose glob does not find what it asks for. -/
def Unmatched (fs : FileSystem) (runDir tok : Str) : Prop := embeds tok = false ∧
  ((∃ glob, selector fileWord tok = some glob ∧ ∀ p, findMatches fs runDir glob ≠ .ok [p]) ∨
    ∃ glob, selector filesWord tok = some glob ∧ ∀ p ps, findMatches fs runDir glob ≠ .ok (p :: ps))

/-- The placeholders of an embedding token leave no brace when they are taken out in one pass. -/
def Separate (tok : Str) : Prop := embeds tok = true → BraceFree (filled [] [] tok)

instance : DecidablePred Separate := fun _ => inferInstanceAs (Decidable (_ → _))

section Token

theorem selector_opening {word g : Str} (h : selector word tok = some g) :
    '{' :: word ++ [':'] <+: if tok.getLast? = some '\n' then tok.dropLast else tok := by
  unfold selector at h
  generalize (if tok.getLast? = some '\n' then tok.dropLast else tok) = body at h ⊢
  simp only at h
  split_ifs at h with hc
  exact hc.1

theorem selector_disjoint {g : Str} (h : selector fileWord tok = some g) :
    selector filesWord tok = none := by
  by_contra hsome
  obtain ⟨g', hg⟩ := Option.ne_none_iff_exists'.1 hsome
  have hpre := List.prefix_of_prefix_length_le (selector_opening h) (selector_opening hg)
      (by decide)
  exact absurd hpre (by decide)

theorem expandToken_embed (h : embeds tok = true) :
    expandToken fs runDir tmpDir tok =
    .ok [replace (replace tok dirMark runDir) tmpMark tmpDir] := by
  unfold expandToken
  rw [if_pos h]

theorem expandToken_file (h : embeds tok = false) (hs : selector fileWord tok = some glob) :
    expandToken fs runDir tmpDir tok = findMatches fs runDir glob >>= fun found =>
      if found.length ≠ 1 then .error (.notOneFile tok glob runDir found) else .ok found := by
  unfold expandToken
  simp only [h, hs, Bool.false_eq_true, if_false]
  rfl

theorem expandToken_files (h : embeds tok = false) (hs : selector filesWord tok = some glob)
    (hn : selector fileWord tok = none) :
    expandToken fs runDir tmpDir tok = findMatches fs runDir glob >>= fun found =>
      if found = [] then .error (.noFile tok glob runDir) else .ok found := by
  unfold expandToken
  simp only [h, hs, hn, Bool.false_eq_true, if_false]
  rfl

theorem expandToken_literal (h : embeds tok = false) (h₁ : selector fileWord tok = none)
    (h₂ : selector filesWord tok = none) : expandToken fs runDir tmpDir tok = .ok [tok] := by
  unfold expandToken
  simp only [h, h₁, h₂, Bool.false_eq_true, if_false]

/-- A selector that does not find what it asks for makes the expansion raise. -/
theorem expandToken_unmatched (h : Unmatched fs runDir tok) (items : List Str) :
    expandToken fs runDir tmpDir tok ≠ .ok items := by
  intro hok
  obtain ⟨he, ⟨glob, hs, hno⟩ | ⟨glob, hs, hno⟩⟩ := h
  · rw [expandToken_file he hs] at hok
    obtain ⟨found, hf, hfound⟩ := except_bind_ok.1 hok
    split_ifs at hfound with hlen
    obtain ⟨p, rfl⟩ := List.length_eq_one_iff.1 (not_not.1 hlen)
    exact hno p hf
  · have hn : selector fileWord tok = none := by
      by_contra hsome
      obtain ⟨g, hg⟩ := Option.ne_none_iff_exists'.1 hsome
      rw [selector_disjoint hg] at hs
      cases hs
    rw [expandToken_files he hs hn] at hok
    obtain ⟨found, hf, hfound⟩ := except_bind_ok.1 hok
    split_ifs at hfound with hnil
    obtain ⟨p, ps, rfl⟩ := List.exists_cons_of_ne_nil hnil
    exact hno p ps hf

/-- An accepted token whose placeholders are separate becomes what it stands for, without a
brace. -/
theorem expandToken_ok {items : List Str} (hv : validateToken tok = .ok ())
    (hrun : BraceFree runDir)
    (htmp : BraceFree tmpDir) (hfs : fs.root.Valid BraceFree) (hsep : Separate tok)
    (h : expandToken fs runDir tmpDir tok = .ok items) :
    Expands fs runDir tmpDir tok items ∧ ∀ item ∈ items, BraceFree item := by
  cases he : embeds tok with
  | true =>
    rw [expandToken_embed he] at h
    have hplain := plain_of_filled (hsep he)
    obtain rfl := Except.ok.inj h
    rw [hplain.replace_eq hrun]
    exact ⟨.embed he, by simpa using hplain.braceFree hrun htmp⟩
  | false =>
    cases hs : selector fileWord tok with
    | some glob =>
      rw [expandToken_file he hs] at h
      obtain ⟨found, hf, hfound⟩ := except_bind_ok.1 h
      split_ifs at hfound with hlen
      obtain rfl := Except.ok.inj hfound
      obtain ⟨p, rfl⟩ := List.length_eq_one_iff.1 (not_not.1 hlen)
      have hm := (mem_findMatches hfs hf List.mem_cons_self).1
      exact ⟨.file he hs hm, fun item hi => braceFree_of_mem_findMatches hrun hfs hf hi⟩
    | none =>
      cases hs' : selector filesWord tok with
      | some glob =>
        rw [expandToken_files he hs' hs] at h
        obtain ⟨found, hf, hfound⟩ := except_bind_ok.1 h
        split_ifs at hfound with hnil
        obtain rfl := Except.ok.inj hfound
        exact ⟨.files he hs' hnil fun p hp => (mem_findMatches hfs hf hp).1,
          fun item hi => braceFree_of_mem_findMatches hrun hfs hf hi⟩
      | none =>
        rw [expandToken_literal he hs hs'] at h
        obtain rfl := Except.ok.inj h
        refine ⟨.literal he hs hs', ?_⟩
        have hmarks : ¬ dirMark <:+: tok ∧ ¬ tmpMark <:+: tok := by
          simpa [embeds] using he
        -- a token without marks is passed on as it is, and has been checked as it is
        have hself : ∀ {w}, ¬ w <:+: tok → replace tok w [] = tok := fun hw =>
          replaceAll_eq_self fun r hr => by rwa [List.mem_singleton.1 hr]
        unfold validateToken at hv
        simp only [hs, hs', hself hmarks.1, hself hmarks.2, Option.isSome_none, Bool.false_eq_true,
          or_self,
          if_false] at hv
        split_ifs at hv with hb
        simpa [BraceFree] using hb

theorem expandToken_error (h : ∀ items, expandToken fs runDir tmpDir tok ≠ .ok items) :
    Unmatched fs runDir tok := by
  cases he : embeds tok with
  | true => exact absurd (expandToken_embed he) (h _)
  | false =>
    refine ⟨he, ?_⟩
    cases hs : selector fileWord tok with
    | some glob =>
      refine .inl ⟨glob, rfl, fun p hp => h [p] ?_⟩
      rw [expandToken_file he hs, hp]
      rfl
    | none =>
      cases hs' : selector filesWord tok with
      | some glob =>
        refine .inr ⟨glob, rfl, fun p ps hp => h (p :: ps) ?_⟩
        rw [expandToken_files he hs' hs, hp]
        rfl
      | none => exact absurd (expandToken_literal he hs hs') (h _)

end Token

theorem validate_ok {argv : List Str} (h : validateArgvTemplate argv = .ok ()) :
    ∀ tok ∈ argv, validateToken tok = .ok () := forM_ok.1 h

/-- An accepted template keeps its promise exactly when the placeholders of each embedding token are
separate, or some selector does not find what it asks for. -/
theorem expandArgv_iff {template : List Str} (hv : validateArgvTemplate template = .ok ())
    (hrun : BraceFree runDir) (htmp : BraceFree tmpDir) (hfs : fs.root.Valid BraceFree) :
    Expanded fs template runDir tmpDir (expandArgv fs template runDir tmpDir) ↔
      (∀ tok ∈ template, Separate tok) ∨ ∃ tok ∈ template, Unmatched fs runDir tok := by
  cases hm : template.mapM (expandToken fs runDir tmpDir) with
  | error e =>
    have hx : expandArgv fs template runDir tmpDir = .error e := by
      unfold expandArgv
      rw [hm]
      rfl
    rw [hx]
    refine iff_of_true trivial (.inr ?_)
    by_contra hno
    -- a template without such a selector expands
    have hall : ∀ tok ∈ template, ∃ items, expandToken fs runDir tmpDir tok = .ok items :=
      fun tok ht => by
      by_contra hne
      exact hno ⟨tok, ht, expandToken_error fun items hi => hne ⟨items, hi⟩⟩
    obtain ⟨parts, hparts⟩ := mapM_of_forall hall
    rw [hparts] at hm
    cases hm
  | ok parts =>
    have hx : expandArgv fs template runDir tmpDir = .ok parts.flatten := by
      unfold expandArgv
      rw [hm]
      rfl
    have hparts := mapM_ok.1 hm
    rw [hx]
    constructor
    · rintro ⟨hbrace, parts', hflat, hexp⟩
      refine .inl fun tok ht he => ?_
      obtain ⟨items, hi, hitems⟩ := exists_right_of_forall₂ hexp tok ht
      cases hitems with
      | embed h =>
        have hmem : filled runDir tmpDir tok ∈ parts.flatten := by
          rw [hflat]
          exact List.mem_flatten_of_mem hi (by simp)
        exact braceFree_of_filled (hbrace _ hmem)
      | file h => cases he.symm.trans h
      | files h => cases he.symm.trans h
      | literal h => cases he.symm.trans h
    · rintro (hsep | ⟨tok, ht, hun⟩)
      · have hok : ∀ tok ∈ template, ∀ items, expandToken fs runDir tmpDir tok = .ok items →
            Expands fs runDir tmpDir tok items ∧ ∀ item ∈ items, BraceFree item :=
              fun tok ht items hi =>
          expandToken_ok (validate_ok hv tok ht) hrun htmp hfs (hsep tok ht) hi
        have hboth := forall₂_imp_mem hparts hok
        refine ⟨fun item hitem => ?_, parts, rfl, hboth.imp fun _ _ h => h.1⟩
        obtain ⟨items, hi, hitem⟩ := List.mem_flatten.1 hitem
        obtain ⟨tok, -, htok⟩ := exists_left_of_forall₂ hboth hi
        exact htok.2 item hitem
      · obtain ⟨items, -, hi⟩ := exists_right_of_forall₂ hparts tok ht
        exact absurd hi (expandToken_unmatched hun items)

/-- A mount with one run directory `/r` and a file in it. -/
def sampleMount : FileSystem where
  root := .dir ['r'] (.file ['x'] [1] .empty) .empty
  cwd := []
  valid := by decide
  cwd_isDir := rfl
  sha256 := fun _ => ([], [])

def sampleTemplate : List Str := ["nsys".toList, "\x7btmp\x7d/e".toList, "\x7bfile:x\x7d".toList]

theorem expandArgv_iff_sample : Expanded sampleMount sampleTemplate "/r".toList "/t".toList
    (expandArgv sampleMount sampleTemplate "/r".toList "/t".toList) :=
  (expandArgv_iff rfl (by decide) (by decide) (by decide)).2 (.inl (by decide +kernel))

def nestedSelector : List Str := ["\x7bfile:\x7bdir\x7d\x7d".toList]
def nestedMark : List Str := ["\x7bt\x7bdir\x7dmp\x7d".toList]

/-- A placeholder inside a selector, and one inside another: both are accepted, and braces reach the
tool. -/
theorem expandArgv_leaks :
    (validateArgvTemplate nestedSelector = .ok () ∧
      ¬ Expanded sampleMount nestedSelector "/r".toList "/t".toList
        (expandArgv sampleMount nestedSelector "/r".toList "/t".toList)) ∧
    validateArgvTemplate nestedMark = .ok () ∧
      ¬ Expanded sampleMount nestedMark "/r".toList "/t".toList
        (expandArgv sampleMount nestedMark "/r".toList "/t".toList) := by
  have hselector : expandArgv sampleMount nestedSelector "/r".toList "/t".toList =
      .ok ["\x7bfile:/r\x7d".toList] := rfl
  have hmark : expandArgv sampleMount nestedMark "/r".toList "/t".toList =
      .ok ["\x7bt/rmp\x7d".toList] := rfl
  rw [hselector, hmark]
  refine ⟨⟨rfl, fun h => ?_⟩, rfl, fun h => ?_⟩
  · exact absurd (h.1 _ List.mem_cons_self) (by decide)
  · exact absurd (h.1 _ List.mem_cons_self) (by decide)

end Accel.Model
