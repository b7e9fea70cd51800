import AccelProf.Model.S3Uri
import AccelProf.Model.Services

/-! When `parse_s3_uri` gives back the bucket and key a URI was built from, and when a URI it
accepts is the one its result stands for. -/

namespace Accel.Model

variable {c : Char} {s t u : Str}

section Cut

def dropFinal (c : Char) (s : Str) : Str := if s.getLast? = some c then s.dropLast else s

theorem dropFinal_sublist (c : Char) (s : Str) : (dropFinal c s).Sublist s := by
  unfold dropFinal
  split_ifs
  · exact List.dropLast_sublist s
  · exact .refl s

theorem dropFinal_cons {d : Char} (h : d ≠ c) (s : Str) :
    dropFinal c (d :: s) = d :: dropFinal c s := by
  cases s with
  | nil => simp [dropFinal, h]
  | cons x xs =>
    unfold dropFinal
    rw [List.getLast?_cons_cons]
    split_ifs <;> rfl

theorem not_mem_takeWhile (c : Char) (s : Str) : c ∉ s.takeWhile (· != c) := by
  intro h
  have := List.mem_takeWhile_imp h
  simp at this

/-- Nothing stands behind the first `c` exactly when `c` stands nowhere but at the end. -/
theorem cutAt_snd_eq_nil : (cutAt c s).2 = [] ↔ c ∉ s.dropLast := by
  by_cases hc : c ∈ s
  · obtain ⟨v, w, hs, hcut⟩ := cutAt_of_mem hc
    have hv : c ∉ v := by
      have : v = s.takeWhile (· != c) := congrArg Prod.fst hcut.symm
      rw [this]
      exact not_mem_takeWhile c s
    rw [hcut, hs]
    cases w with
    | nil => simpa using hv
    | cons x xs => simp
  · rw [cutAt_of_not_mem hc]
    simpa using fun h => hc (List.mem_of_mem_dropLast h)

theorem cutAt_fst (h : c ∉ s.dropLast) : (cutAt c s).1 = dropFinal c s := by
  rcases List.eq_nil_or_concat' s with rfl | ⟨t, x, rfl⟩
  · rfl
  rw [List.dropLast_concat] at h
  unfold dropFinal cutAt
  rw [List.getLast?_concat, List.dropLast_concat]
  have hall : ∀ y ∈ t, (y != c) = true := fun y hy => bne_iff_ne.2 fun hyc => h (hyc ▸ hy)
  rw [List.takeWhile_append_of_pos hall]
  by_cases hx : x = c
  · simp [hx]
  · simp [hx]

theorem not_mem_dropFinal (h : c ∉ s.dropLast) : c ∉ dropFinal c s := by
  rw [← cutAt_fst h]
  exact not_mem_takeWhile c s

theorem dropFinal_eq_self : dropFinal c s = s ↔ s.getLast? ≠ some c := by
  unfold dropFinal
  split_ifs with h
  · refine iff_of_false (fun hd => ?_) (not_not.2 h)
    have hlen := congrArg List.length hd
    rw [List.length_dropLast] at hlen
    have : s ≠ [] := by
      rintro rfl
      cases h
    have := List.length_pos_of_ne_nil this
    omega
  · exact iff_of_true rfl h

end Cut

/-- What remains of a word when the parser takes a lone `#` or `?` at its end for an empty fragment
or query. -/
def dropMarks (s : Str) : Str := dropFinal '?' (dropFinal '#' s)

/-- The parser sees a query or a fragment. -/
def HasQuery (s : Str) : Prop := '#' ∈ s.dropLast ∨ '?' ∈ (dropFinal '#' s).dropLast

instance (s : Str) : Decidable (HasQuery s) := inferInstanceAs (Decidable (_ ∨ _))

theorem hasQuery_iff (s : Str) :
    (cutAt '?' (cutAt '#' s).1).2 ≠ [] ∨ (cutAt '#' s).2 ≠ [] ↔ HasQuery s := by
  unfold HasQuery
  rw [ne_eq, ne_eq, cutAt_snd_eq_nil, cutAt_snd_eq_nil, not_not, not_not, or_comm]
  refine or_congr_right' fun h => ?_
  rw [cutAt_fst h]

theorem cut_eq_dropMarks (h : ¬ HasQuery s) : (cutAt '?' (cutAt '#' s).1).1 = dropMarks s := by
  obtain ⟨h₁, h₂⟩ := not_or.1 h
  rw [cutAt_fst h₁, cutAt_fst h₂, dropMarks]

theorem dropMarks_sublist (s : Str) : (dropMarks s).Sublist s :=
  (dropFinal_sublist ..).trans (dropFinal_sublist ..)

theorem dropMarks_cons (s : Str) : dropMarks ('/' :: s) = '/' :: dropMarks s := by
  rw [dropMarks, dropFinal_cons (by decide), dropFinal_cons (by decide), dropMarks]

theorem hasQuery_cons (s : Str) : HasQuery ('/' :: s) ↔ HasQuery s := by
  have hdrop : ∀ (c : Char) (t : Str), c ≠ '/' → (c ∈ ('/' :: t).dropLast ↔ c ∈ t.dropLast) :=
    fun c t hc => by
      cases t with
      | nil => simp
      | cons x xs => simp [hc]
  unfold HasQuery
  rw [dropFinal_cons (by decide), hdrop _ _ (by decide), hdrop _ _ (by decide)]

/-- No mark is left in what the parser keeps. -/
theorem not_mem_dropMarks (h : ¬ HasQuery s) : '?' ∉ dropMarks s ∧ '#' ∉ dropMarks s := by
  obtain ⟨h₁, h₂⟩ := not_or.1 h
  exact ⟨not_mem_dropFinal h₂, fun hm => not_mem_dropFinal h₁ ((dropFinal_sublist ..).subset hm)⟩

theorem dropMarks_eq_self (h₁ : '?' ∉ s) (h₂ : '#' ∉ s) : dropMarks s = s := by
  have hlast : ∀ {c : Char} {s : Str}, c ∉ s → dropFinal c s = s := fun hc =>
    dropFinal_eq_self.2 fun hl => hc (List.mem_of_getLast? hl)
  rw [dropMarks, hlast h₂, hlast h₁]

section Key

/-- The characters of a key all reach the object the key names. -/
structure PlainKey (k : Key) : Prop where
  chars : ∀ c ∈ k, isRemoved c = false
  noQuery : '?' ∉ k
  noFragment : '#' ∉ k
  noSlash : k.head? ≠ some '/'

theorem lstrip_eq_self (h : s.head? ≠ some '/') : lstrip '/' s = s := by
  cases s with
  | nil => rfl
  | cons x xs =>
    have hx : x ≠ '/' := fun hx => h (by rw [hx]; rfl)
    simp [lstrip, hx]

/-- The parser on the URI of any key. -/
theorem parseS3Uri_key_eq (b : BucketName) (k : Key) : parseS3Uri (s3Uri b.name k) =
    if HasQuery (clean k) then .error (.queryOrFragment (s3Uri b.name k))
    else .ok ⟨b.name, lstrip '/' (dropMarks (clean k))⟩ := by
  rw [parseS3Uri_s3Uri]
  by_cases h : HasQuery (clean k)
  · rw [if_pos h, if_pos ((hasQuery_iff _).2 ((hasQuery_cons _).2 h))]
  · have h' : ¬ HasQuery ('/' :: clean k) := fun hq => h ((hasQuery_cons _).1 hq)
    rw [if_neg h, if_neg fun hq => h' ((hasQuery_iff _).1 hq), cut_eq_dropMarks h', dropMarks_cons]
    rfl

/-- The stages of the parser only ever drop characters, so a key comes back whole when none of them
drops any. -/
theorem parsed_key_eq_self {k : Key} (h : ¬ HasQuery (clean k)) :
    lstrip '/' (dropMarks (clean k)) = k ↔ PlainKey k := by
  have hclean : (clean k).Sublist k := List.filter_sublist
  have hmarks : (dropMarks (clean k)).Sublist (clean k) := dropMarks_sublist _
  have hstrip : (lstrip '/' (dropMarks (clean k))).Sublist (dropMarks (clean k)) :=
    List.dropWhile_sublist _
  constructor
  · intro hk
    have hlen := congrArg List.length hk
    have h₁ := hclean.length_le
    have h₂ := hmarks.length_le
    have h₃ := hstrip.length_le
    have hk₁ : clean k = k := hclean.eq_of_length (by omega)
    have hk₂ : dropMarks (clean k) = k := (hmarks.eq_of_length (by omega)).trans hk₁
    obtain ⟨hq, hf⟩ := not_mem_dropMarks h
    rw [hk₂] at hq hf
    refine ⟨clean_eq_self.1 hk₁, hq, hf, fun hs => ?_⟩
    have := head?_lstrip (dropMarks (clean k))
    rw [hk] at this
    exact this hs
  · intro hp
    rw [clean_eq_self.2 hp.chars, dropMarks_eq_self hp.noQuery hp.noFragment,
      lstrip_eq_self hp.noSlash]

theorem parse_key_iff (b : BucketName) (k : Key) :
    ((∃ e, parseS3Uri (s3Uri b.name k) = .error e) ∨
      parseS3Uri (s3Uri b.name k) = .ok ⟨b.name, k⟩) ↔
      HasQuery (clean k) ∨ PlainKey k := by
  rw [parseS3Uri_key_eq]
  by_cases h : HasQuery (clean k)
  · simp [h]
  · rw [if_neg h, or_iff_right h, ← parsed_key_eq_self h]
    simp

end Key

section Uri

theorem toLower_toNat {a : Char} {n : ℕ} (h : a.toLower.toNat = n) :
    a.toNat = n ∨ a.toNat + 32 = n := by
  unfold Char.toLower at h
  split at h
  · next hc =>
    have hle : a.val.toNat ≤ 90 := hc.2
    have hsum : (a.val + ('a'.val - 'A'.val)).toNat = n := h
    have hshift : ('a'.val - 'A'.val).toNat = 32 := rfl
    have hval : a.toNat = a.val.toNat := rfl
    rw [UInt32.toNat_add, hshift] at hsum
    omega
  · exact .inl h

theorem scheme_cases (h : s.map Char.toLower = s3Scheme) : s = ['s', '3'] ∨ s = ['S', '3'] := by
  obtain ⟨a, t, rfl, ha, ht⟩ := List.map_eq_cons_iff.1 h
  obtain ⟨d, t', rfl, hd, ht'⟩ := List.map_eq_cons_iff.1 ht
  obtain rfl := List.map_eq_nil_iff.1 ht'
  have hchar : ∀ {x y : Char}, x.toNat = y.toNat → x = y := fun h => Char.ext (UInt32.toNat_inj.1 h)
  have ha' : a = 's' ∨ a = 'S' := by
    rcases toLower_toNat (congrArg Char.toNat ha) with h₁ | h₁
    · exact .inl (hchar h₁)
    · have h83 : a.toNat + 32 = 115 := h₁
      have hS : 'S'.toNat = 83 := rfl
      exact .inr (hchar (by omega))
  have hd' : d = '3' := by
    rcases toLower_toNat (congrArg Char.toNat hd) with h₂ | h₂
    · exact hchar h₂
    -- a letter is needed for the case to matter, and `3` is not the lower case of any
    · have h19 : d.toNat + 32 = 51 := h₂
      have hd19 : d = Char.ofNat 19 := hchar (by have : (Char.ofNat 19).toNat = 19 := rfl; omega)
      rw [hd19] at hd
      exact absurd hd (by decide)
  rcases ha' with rfl | rfl
  · exact .inl (by rw [hd'])
  · exact .inr (by rw [hd'])

/-- What the parser has seen of a URI it accepts, once the URI is cleaned. -/
structure Accepted (u : Str) (p : ParsedS3Uri) (scheme tail : Str) : Prop where
  lowered : scheme.map Char.toLower = s3Scheme
  split : clean (u.dropWhile isC0OrSpace) = scheme ++ ':' :: '/' :: '/' :: (p.bucket ++ tail)
  nonempty : p.bucket ≠ []
  netloc : ∀ c ∈ p.bucket, endsNetloc c = false
  ends : tail.head?.all endsNetloc = true
  unmarked : ¬ HasQuery tail
  key : p.key = lstrip '/' (dropMarks tail)

theorem splitScheme_eq (url : Str) (hs : (splitScheme url).1 ≠ []) :
    ∃ pre, pre.map Char.toLower = (splitScheme url).1 ∧
    url = pre ++ ':' :: (splitScheme url).2 := by
  unfold splitScheme at hs ⊢
  simp only at hs ⊢
  split_ifs at hs ⊢ with hc
  · simp only [Bool.and_eq_true, decide_eq_true_eq] at hc
    refine ⟨_, rfl, ?_⟩
    have hmem : ':' ∈ url := by
      by_contra hn
      have hall : ∀ x ∈ url, (x != ':') = true := fun x hx => bne_iff_ne.2 fun hxc => hn (hxc ▸ hx)
      rw [List.takeWhile_eq_self_iff.2 hall] at hc
      exact absurd hc.1.1 (lt_irrefl _)
    obtain ⟨v, w, hurl, hcut⟩ := cutAt_of_mem hmem
    have hv : url.takeWhile (· != ':') = v := congrArg Prod.fst hcut
    have hdrop : url.drop (v.length + 1) = w := by
      rw [hurl, List.drop_append]
      simp
    rw [hv, hdrop]
    exact hurl
  · exact absurd rfl hs

theorem splitNetloc_eq (url : Str) (hn : (splitNetloc url).1 ≠ []) :
    url = '/' :: '/' :: ((splitNetloc url).1 ++ (splitNetloc url).2) ∧
      (∀ c ∈ (splitNetloc url).1, endsNetloc c = false) ∧
      (splitNetloc url).2.head?.all endsNetloc = true := by
  unfold splitNetloc at hn ⊢
  split_ifs at hn ⊢ with hp
  · obtain ⟨t, rfl⟩ := List.isPrefixOf_iff_prefix.1 hp
    refine ⟨by simp [List.takeWhile_append_dropWhile], fun c hc => ?_, ?_⟩
    · simpa using List.mem_takeWhile_imp hc
    · have hhead := List.head?_dropWhile_not (!endsNetloc ·) t
      simp only [List.cons_append, List.nil_append, List.drop_succ_cons, List.drop_zero]
      cases hh : (t.dropWhile (!endsNetloc ·)).head? with
      | none => rfl
      | some x =>
        rw [hh] at hhead
        simpa using hhead
  · exact absurd rfl hn

theorem accepted_of_parse {p : ParsedS3Uri} (h : parseS3Uri u = .ok p) :
    ∃ scheme tail, Accepted u p scheme tail := by
  unfold parseS3Uri at h
  cases hr : urlparse u with
  | error e =>
    rw [hr] at h
    cases h
  | ok r =>
    rw [hr] at h
    simp only at h
    split_ifs at h with hscheme hquery hbucket
    obtain rfl := Except.ok.inj h
    simp only [urlparse] at hr
    split_ifs at hr
    obtain rfl := Except.ok.inj hr
    simp only [ne_eq, not_not] at hscheme hbucket
    obtain ⟨pre, hlow, hsplit⟩ := splitScheme_eq _ (by rw [hscheme]; decide)
    obtain ⟨hrest, hnet, hends⟩ := splitNetloc_eq _ hbucket
    have hq := (not_congr (hasQuery_iff _)).1 hquery
    refine ⟨pre, _, hlow.trans hscheme, hsplit.trans ?_, hbucket, hnet, hends, hq, ?_⟩
    · exact congrArg (fun t => pre ++ ':' :: t) hrest
    · show lstrip '/' _ = _
      rw [cut_eq_dropMarks hq]

/-- `s3://<bucket>/<key>` in either spelling of the scheme; without a key the slash may be
missing. -/
def Denotes (u : Str) (p : ParsedS3Uri) : Prop :=
  ∃ scheme, scheme.map Char.toLower = s3Scheme ∧
    (u = scheme ++ ':' :: '/' :: '/' :: (p.bucket ++ '/' :: p.key) ∨
      p.key = [] ∧ u = scheme ++ ':' :: '/' :: '/' :: p.bucket)

/-- Nothing in the URI that the parser would drop: no tab or line break, no control character or
space before it, no `?` or `#`, and one slash after the bucket. -/
structure PlainUri (u : Str) : Prop where
  chars : ∀ c ∈ u, isRemoved c = false
  start : u.head?.any isC0OrSpace = false
  noQuery : '?' ∉ u
  noFragment : '#' ∉ u
  oneSlash : ¬ ['/', '/'] <+: (u.drop 5).dropWhile (· != '/')

theorem tail_eq {b : Str} (hb : ∀ c ∈ b, endsNetloc c = false) (t : Str) :
    (b ++ t).dropWhile (· != '/') = t.dropWhile (· != '/') :=
  List.dropWhile_append_of_pos fun c hc => by
    have := hb c hc
    simp only [endsNetloc, Bool.or_eq_false_iff] at this
    simpa using this.1.1

section Accepted
variable {p : ParsedS3Uri} {scheme tail : Str}

theorem Accepted.bucket_char (h : Accepted u p scheme tail) (hc : c ∈ p.bucket) :
    isRemoved c = false ∧ c ≠ '?' ∧ c ≠ '#' := by
  have hmem : c ∈ clean (u.dropWhile isC0OrSpace) := by
    rw [h.split]
    simp [hc]
  have hends := h.netloc c hc
  simp only [endsNetloc, Bool.or_eq_false_iff, beq_eq_false_iff_ne] at hends
  exact ⟨(mem_clean.1 hmem).2, hends.1.2, hends.2⟩

theorem Accepted.key_char (h : Accepted u p scheme tail) (hc : c ∈ p.key) :
    isRemoved c = false ∧ c ≠ '?' ∧ c ≠ '#' := by
  rw [h.key] at hc
  have hmarks : c ∈ dropMarks tail := (List.dropWhile_sublist _).subset hc
  have hmem : c ∈ clean (u.dropWhile isC0OrSpace) := by
    rw [h.split]
    simp [(dropMarks_sublist tail).subset hmarks]
  obtain ⟨hq, hf⟩ := not_mem_dropMarks h.unmarked
  refine ⟨(mem_clean.1 hmem).2, ?_, ?_⟩
  · rintro rfl
    exact hq hmarks
  · rintro rfl
    exact hf hmarks

theorem scheme_char (hs : s.map Char.toLower = s3Scheme) (hc : c ∈ s) :
    isRemoved c = false ∧ c ≠ '?' ∧ c ≠ '#' := by
  have hmem : c = 's' ∨ c = 'S' ∨ c = '3' := by
    rcases scheme_cases hs with rfl | rfl
    · simp only [List.mem_cons, List.not_mem_nil, or_false] at hc
      exact hc.imp id .inr
    · simp only [List.mem_cons, List.not_mem_nil, or_false] at hc
      exact .inr hc
  rcases hmem with rfl | rfl | rfl <;> decide

/-- A URI put together from the result has nothing in it that the parser drops. -/
theorem Accepted.plain_of_denotes (h : Accepted u p scheme tail) (hd : Denotes u p) :
    PlainUri u := by
  obtain ⟨pre, rest, hpre, rfl, hrest⟩ : ∃ pre rest, pre.map Char.toLower = s3Scheme ∧
      u = pre ++ ':' :: '/' :: '/' :: (p.bucket ++ rest) ∧
      (rest = '/' :: p.key ∨ rest = [] ∧ p.key = []) := by
    obtain ⟨pre, hpre, rfl | ⟨hk, rfl⟩⟩ := hd
    · exact ⟨pre, _, hpre, rfl, .inl rfl⟩
    · exact ⟨pre, [], hpre, by rw [List.append_nil], .inr ⟨rfl, hk⟩⟩
  have hchar : ∀ c ∈ pre ++ ':' :: '/' :: '/' :: (p.bucket ++ rest),
      isRemoved c = false ∧ c ≠ '?' ∧ c ≠ '#' := fun c hc => by
    have hslash : isRemoved '/' = false ∧ '/' ≠ '?' ∧ '/' ≠ '#' := by decide
    simp only [List.mem_append, List.mem_cons] at hc
    rcases hc with hc | rfl | rfl | rfl | hc | hc
    · exact scheme_char hpre hc
    · decide
    · exact hslash
    · exact hslash
    · exact h.bucket_char hc
    · rcases hrest with rfl | ⟨rfl, -⟩
      · rcases List.mem_cons.1 hc with rfl | hc
        · exact hslash
        · exact h.key_char hc
      · cases hc
  refine ⟨fun c hc => (hchar c hc).1, ?_, fun hc => (hchar _ hc).2.1 rfl,
    fun hc => (hchar _ hc).2.2 rfl,
    ?_⟩
  · rcases scheme_cases hpre with rfl | rfl <;> rfl
  · have hdrop : (pre ++ ':' :: '/' :: '/' :: (p.bucket ++ rest)).drop 5 = p.bucket ++ rest := by
      rcases scheme_cases hpre with rfl | rfl <;> rfl
    rw [hdrop, tail_eq h.netloc]
    rcases hrest with rfl | ⟨rfl, -⟩
    · have hhead := head?_lstrip (dropMarks tail)
      rw [← h.key] at hhead
      rintro ⟨t, ht⟩
      have hkey : p.key = '/' :: t := by simpa using ht.symm
      rw [hkey] at hhead
      exact hhead rfl
    · simp

/-- A URI in which the parser drops nothing is put together from the result. -/
theorem Accepted.denotes_of_plain (h : Accepted u p scheme tail) (hu : PlainUri u) :
    Denotes u p := by
  have hstart : u.dropWhile isC0OrSpace = u := by
    cases u with
    | nil => rfl
    | cons x xs =>
      have hx : isC0OrSpace x = false := hu.start
      rw [List.dropWhile_cons_of_neg (by simp [hx])]
  have hsplit := h.split
  rw [hstart, clean_eq_self.2 hu.chars] at hsplit
  have hdrop : u.drop 5 = p.bucket ++ tail := by
    rw [hsplit]
    rcases scheme_cases h.lowered with rfl | rfl <;> rfl
  have hone := hu.oneSlash
  rw [hdrop, tail_eq h.netloc] at hone
  refine ⟨scheme, h.lowered, ?_⟩
  cases htail : tail with
  | nil =>
    refine .inr ⟨by rw [h.key, htail]; rfl, ?_⟩
    rw [hsplit, htail, List.append_nil]
  | cons x t =>
    have hmem : x ∈ u := by
      rw [hsplit, htail]
      simp
    have hends := h.ends
    rw [htail] at hends
    have hx : x = '/' := by
      simp only [List.head?_cons, Option.all_some, endsNetloc, Bool.or_eq_true, beq_iff_eq] at hends
      rcases hends with (hx | rfl) | rfl
      · exact hx
      · exact absurd hmem hu.noQuery
      · exact absurd hmem hu.noFragment
    subst hx
    -- the key is a part of the URI, so it has no mark that the parser would cut at
    have hsub : tail.Sublist u := by
      rw [hsplit]
      exact ((List.sublist_append_right p.bucket tail).trans ((List.sublist_cons_self ..).trans
        ((List.sublist_cons_self ..).trans (List.sublist_cons_self ..)))).trans
          (List.sublist_append_right ..)
    have hkey : p.key = t := by
      rw [h.key, dropMarks_eq_self (fun hc => hu.noQuery (hsub.subset hc))
        fun hc => hu.noFragment (hsub.subset hc), htail]
      refine lstrip_eq_self (s := t) fun hs => hone ?_
      rw [htail]
      cases t with
      | nil => cases hs
      | cons y t' =>
        obtain rfl := Option.some.inj hs
        exact ⟨t', rfl⟩
    rw [hsplit, htail, hkey]
    exact .inl rfl

end Accepted

/-- An accepted URI is the one its result stands for exactly when the parser had nothing to drop. -/
theorem denotes_iff {p : ParsedS3Uri} (h : parseS3Uri u = .ok p) : Denotes u p ↔ PlainUri u := by
  obtain ⟨scheme, tail, ha⟩ := accepted_of_parse h
  exact ⟨ha.plain_of_denotes, ha.denotes_of_plain⟩

end Uri

/-- Building and parsing undo each other exactly where the parser has nothing to drop: from a key it
accepts it may lose a lone mark at the end, a tab or line break, or slashes at the front. -/
theorem parseS3Uri_exact_iff (b : BucketName) (k : Key) (uri : Str) :
    ((∃ e, parseS3Uri (s3Uri b.name k) = .error e) ∨ parseS3Uri (s3Uri b.name k) = .ok ⟨b.name, k⟩ ↔
      HasQuery (clean k) ∨ PlainKey k) ∧
    ∀ p, parseS3Uri uri = .ok p → (Denotes uri p ↔ PlainUri uri) :=
  ⟨parse_key_iff b k, fun _ => denotes_iff⟩

/-- In `S3://b/k` only the case of the scheme is lost. -/
theorem parseS3Uri_exact_iff_upper : ∃ (b : BucketName) (k : Key) (uri : Str) (p : ParsedS3Uri),
    b.name = ['b'] ∧ k = ['k'] ∧ uri = "S3://b/k".toList ∧ p = ⟨['b'], ['k']⟩ ∧
    ((∃ e, parseS3Uri (s3Uri b.name k) = .error e) ∨ parseS3Uri (s3Uri b.name k) = .ok ⟨b.name, k⟩ ↔
      HasQuery (clean k) ∨ PlainKey k) ∧ parseS3Uri uri = .ok p ∧
        (Denotes uri p ↔ PlainUri uri) := by
  have hparse : parseS3Uri ['S', '3', ':', '/', '/', 'b', '/', 'k'] = .ok ⟨['b'], ['k']⟩ := rfl
  have hexact := parseS3Uri_exact_iff ⟨['b'], by decide, by simp [isBucketChar]⟩ ['k']
    ['S', '3', ':', '/', '/', 'b', '/', 'k']
  exact ⟨_, _, _, _, rfl, rfl, rfl, rfl, hexact.1, hparse, hexact.2 _ hparse⟩

/-- The key `a?` is legal in S3, and its URI points at the object `a`. -/
theorem parseS3Uri_drops_mark : ∃ (b : BucketName) (k : Key), k = ['a', '?'] ∧
    parseS3Uri (s3Uri b.name k) = .ok ⟨b.name, ['a']⟩ ∧
      ¬ ((∃ e, parseS3Uri (s3Uri b.name k) = .error e) ∨
        parseS3Uri (s3Uri b.name k) = .ok ⟨b.name, k⟩) := by
  have hparse : parseS3Uri (s3Uri ['b'] ['a', '?']) = .ok ⟨['b'], ['a']⟩ := rfl
  refine ⟨⟨['b'], by decide, by simp [isBucketChar]⟩, ['a', '?'], rfl, hparse, ?_⟩
  rw [hparse]
  simp

end Accel.Model
