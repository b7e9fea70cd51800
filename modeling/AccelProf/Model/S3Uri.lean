import AccelProf.Model.Text

/-! `s3://bucket/key` strings: how the layout builds them and how `urlparse` takes them apart. -/

namespace Accel.Model

def isC0OrSpace (c : Char) : Bool := c.toNat ≤ 32
def isRemoved (c : Char) : Bool := c == '\t' || c == '\r' || c == '\n'
def isSchemeChar (c : Char) : Bool := c.isAlphanum || c == '+' || c == '-' || c == '.'
def endsNetloc (c : Char) : Bool := c == '/' || c == '?' || c == '#'

/-- What is left of a URL once its tabs and line breaks are deleted. -/
def clean (s : Str) : Str := s.filter fun c => !isRemoved c

/-- `s.split(c, 1)`, the second part empty when `c` is absent. -/
def cutAt (c : Char) (s : Str) : Str × Str :=
  (s.takeWhile (· != c), (s.dropWhile (· != c)).drop 1)

structure SplitResult where
  scheme : Str
  netloc : Str
  path : Str
  query : Str
  fragment : Str

def splitScheme (url : Str) : Str × Str :=
  let pre := url.takeWhile (· != ':')
  if pre.length < url.length && (pre.head?.any Char.isAlpha) && pre.all isSchemeChar then
    (pre.map Char.toLower, url.drop (pre.length + 1))
  else ([], url)

def splitNetloc (url : Str) : Str × Str :=
  if ['/', '/'].isPrefixOf url then
    ((url.drop 2).takeWhile (!endsNetloc ·), (url.drop 2).dropWhile (!endsNetloc ·))
  else ([], url)

/-- `urlsplit`: no URL with a scheme the caller accepts has params, so `urlparse` adds nothing. -/
def urlparse (uri : Str) : Except PyExc SplitResult :=
  let (scheme, afterScheme) := splitScheme (clean (uri.dropWhile isC0OrSpace))
  let (netloc, afterNetloc) := splitNetloc afterScheme
  if ('[' ∈ netloc) ≠ (']' ∈ netloc) then .error (.invalidUrl uri)
  else
    let (beforeFragment, fragment) := cutAt '#' afterNetloc
    let (path, query) := cutAt '?' beforeFragment
    .ok ⟨scheme, netloc, path, query, fragment⟩

structure ParsedS3Uri where
  bucket : Str
  key : Str

def s3Scheme : Str := ['s', '3']

/-- `parse_s3_uri`. Of what `urlsplit` itself refuses only unpaired brackets are modelled: left out
are bracketed hosts that are no IP address and netlocs that normalisation would split. -/
def parseS3Uri (uri : Str) : Except PyExc ParsedS3Uri :=
  match urlparse uri with
  | .error e => .error e
  | .ok parsed =>
    if parsed.scheme ≠ s3Scheme then .error (.notS3Uri uri)
    else if parsed.query ≠ [] ∨ parsed.fragment ≠ [] then .error (.queryOrFragment uri)
    else if parsed.netloc = [] then .error (.noBucket uri)
    else .ok ⟨parsed.netloc, lstrip '/' parsed.path⟩

def runPrefix (aliasName runId : Str) : Str := aliasName ++ '/' :: (runId ++ ['/'])

/-- `f"s3://{bucket}/{key}"` -/
def s3Uri (bucket key : Str) : Str := ['s', '3', ':', '/', '/'] ++ (bucket ++ '/' :: key)

def artifactsUri (bucket aliasName runId : Str) : Str := s3Uri bucket (runPrefix aliasName runId)

def isBucketChar (c : Char) : Bool := c.isAlphanum || c == '.' || c == '-' || c == '_'

/-- A bucket name S3 accepts, in particular one that ends no netloc. -/
structure BucketName where
  name : Str
  nonempty : name ≠ []
  chars : ∀ c ∈ name, isBucketChar c = true

theorem isBucketChar_not_removed {c : Char} (h : isBucketChar c = true) : isRemoved c = false := by
  unfold isRemoved
  by_contra hc
  simp only [Bool.not_eq_false, Bool.or_eq_true, beq_iff_eq] at hc
  rcases hc with (rfl | rfl) | rfl <;> exact absurd h (by decide)

theorem isBucketChar_not_ends {c : Char} (h : isBucketChar c = true) : endsNetloc c = false := by
  unfold endsNetloc
  by_contra hc
  simp only [Bool.not_eq_false, Bool.or_eq_true, beq_iff_eq] at hc
  rcases hc with (rfl | rfl) | rfl <;> exact absurd h (by decide)

@[simp] theorem clean_append (s t : Str) : clean (s ++ t) = clean s ++ clean t :=
  List.filter_append ..

theorem clean_eq_self {s : Str} : clean s = s ↔ ∀ c ∈ s, isRemoved c = false := by
  simp [clean]

theorem mem_clean {s : Str} {c : Char} : c ∈ clean s ↔ c ∈ s ∧ isRemoved c = false := by
  simp [clean]

theorem BucketName.clean_name (b : BucketName) : clean b.name = b.name :=
  clean_eq_self.2 fun c hc => isBucketChar_not_removed (b.chars c hc)

theorem BucketName.not_mem (b : BucketName) {c : Char} (h : isBucketChar c = false) :
    c ∉ b.name := fun hc => by simp [b.chars c hc] at h

theorem clean_s3Uri (b : BucketName) (k : Str) :
    clean ((s3Uri b.name k).dropWhile isC0OrSpace) = s3Uri b.name (clean k) := by
  have h : (s3Uri b.name k).dropWhile isC0OrSpace = s3Uri b.name k := rfl
  rw [h, s3Uri, clean_append, clean_append, b.clean_name]
  rfl

theorem splitScheme_s3Uri (b k : Str) :
    splitScheme (s3Uri b k) = (s3Scheme, ['/', '/'] ++ (b ++ '/' :: k)) := by
  have h : (s3Uri b k).takeWhile (· != ':') = ['s', '3'] := rfl
  simp only [splitScheme, h]
  rfl

theorem splitNetloc_s3Uri (b : BucketName) (k : Str) :
    splitNetloc (['/', '/'] ++ (b.name ++ '/' :: k)) = (b.name, '/' :: k) := by
  have hall : ∀ c ∈ b.name, (!endsNetloc c) = true := fun c hc => by
    simp [isBucketChar_not_ends (b.chars c hc)]
  have h₁ : (b.name ++ '/' :: k).takeWhile (!endsNetloc ·) = b.name := by
    rw [List.takeWhile_append_of_pos hall]
    simp [endsNetloc]
  have h₂ : (b.name ++ '/' :: k).dropWhile (!endsNetloc ·) = '/' :: k := by
    rw [List.dropWhile_append_of_pos hall]
    simp [endsNetloc]
  simp only [splitNetloc, List.cons_append, List.nil_append, List.drop_succ_cons, List.drop_zero,
    h₁, h₂]
  rfl

/-- The parser on a URI the layout built, for an arbitrary key. -/
theorem parseS3Uri_s3Uri (b : BucketName) (k : Str) :
    parseS3Uri (s3Uri b.name k) =
      if (cutAt '?' (cutAt '#' ('/' :: clean k)).1).2 ≠ [] ∨
        (cutAt '#' ('/' :: clean k)).2 ≠ [] then
        .error (.queryOrFragment (s3Uri b.name k))
      else .ok ⟨b.name, lstrip '/' (cutAt '?' (cutAt '#' ('/' :: clean k)).1).1⟩ := by
  have hb : ('[' ∈ b.name) = (']' ∈ b.name) := by
    simp [b.not_mem (c := '[') (by decide), b.not_mem (c := ']') (by decide)]
  simp only [parseS3Uri, urlparse, clean_s3Uri, splitScheme_s3Uri, splitNetloc_s3Uri, hb,
    ne_eq, not_true_eq_false, if_false, b.nonempty]

theorem cutAt_of_not_mem {c : Char} {s : Str} (h : c ∉ s) : cutAt c s = (s, []) := by
  have hall : ∀ x ∈ s, (x != c) = true := fun x hx => bne_iff_ne.2 fun hxc => h (hxc ▸ hx)
  have ht : s.takeWhile (· != c) = s := List.takeWhile_eq_self_iff.2 hall
  have hd : s.dropWhile (· != c) = [] := List.dropWhile_eq_nil_iff.2 hall
  rw [cutAt, ht, hd, List.drop_nil]

theorem cutAt_of_mem {c : Char} {s : Str} (h : c ∈ s) :
    ∃ u v, s = u ++ c :: v ∧ cutAt c s = (u, v) := by
  induction s with
  | nil => cases h
  | cons x xs ih =>
    by_cases hx : x = c
    · exact ⟨[], xs, by rw [hx]; rfl, by simp [cutAt, hx]⟩
    · obtain ⟨u, v, rfl, hc⟩ := ih (by simpa [Ne.symm hx] using h)
      refine ⟨x :: u, v, rfl, ?_⟩
      rw [cutAt, List.takeWhile_cons_of_pos (by simpa using hx),
        List.dropWhile_cons_of_pos (by simpa using hx)]
      simp only [cutAt, Prod.mk.injEq] at hc
      rw [hc.1, hc.2]

theorem cutAt_snd_ne_nil {c : Char} {s : Str} (hc : c ≠ '/') (h : c ∈ s ++ ['/']) :
    (cutAt c (s ++ ['/'])).2 ≠ [] := by
  obtain ⟨u, v, hs, huv⟩ := cutAt_of_mem h
  rw [huv]
  rintro rfl
  have : c = '/' := by
    have := congrArg List.getLast? hs
    simpa using this.symm
  exact hc this

/-- The key that the URI of a prefix parses back to, when the parser accepts it. -/
def uriKey (p : Str) : Str := lstrip '/' (clean p)

/-- The prefixes the parser refuses: their URI would have a query or a fragment. -/
def isRefused (p : Str) : Bool := '?' ∈ p || '#' ∈ p

theorem parseS3Uri_prefix (b : BucketName) (q : Str) :
    parseS3Uri (s3Uri b.name (q ++ ['/'])) =
      if isRefused (q ++ ['/']) then .error (.queryOrFragment (s3Uri b.name (q ++ ['/'])))
      else .ok ⟨b.name, uriKey (q ++ ['/'])⟩ := by
  have hclean : '/' :: clean (q ++ ['/']) = ('/' :: clean q) ++ ['/'] := by
    rw [clean_append]
    rfl
  have hmem : ∀ c, isRemoved c = false → c ≠ '/' →
      (c ∈ ('/' :: clean q) ++ ['/'] ↔ c ∈ q ++ ['/']) := fun c hr hs => by
    simp [mem_clean, hr, hs]
  have hq := hmem '?' (by decide) (by decide)
  have hf := hmem '#' (by decide) (by decide)
  rw [parseS3Uri_s3Uri, hclean]
  by_cases h₁ : '#' ∈ q ++ ['/']
  · rw [if_pos (.inr (cutAt_snd_ne_nil (by decide) (hf.2 h₁))), if_pos (by simp [isRefused, h₁])]
  · rw [cutAt_of_not_mem (mt hf.1 h₁)]
    by_cases h₂ : '?' ∈ q ++ ['/']
    · rw [if_pos (.inl (cutAt_snd_ne_nil (by decide) (hq.2 h₂))),
        if_pos (by simp [isRefused, h₂])]
    · rw [cutAt_of_not_mem (mt hq.1 h₂), if_neg (by simp), if_neg (by simp [isRefused, h₁, h₂])]
      rw [uriKey, ← hclean]
      rfl

theorem splitScheme_sublist (url : Str) : (splitScheme url).2.Sublist url := by
  rw [splitScheme]
  split_ifs
  · exact List.drop_sublist ..
  · exact .refl _

theorem splitNetloc_sublist (url : Str) : (splitNetloc url).2.Sublist url := by
  rw [splitNetloc]
  split_ifs
  · exact (List.dropWhile_sublist _).trans (List.drop_sublist ..)
  · exact .refl _

theorem cutAt_sublist (c : Char) (s : Str) : (cutAt c s).1.Sublist s := List.takeWhile_sublist _

theorem urlparse_path {uri : Str} {r : SplitResult} (h : urlparse uri = .ok r) :
    r.path.Sublist (clean (uri.dropWhile isC0OrSpace)) := by
  simp only [urlparse] at h
  split_ifs at h
  obtain rfl := Except.ok.inj h
  exact ((cutAt_sublist ..).trans (cutAt_sublist ..)).trans
    ((splitNetloc_sublist _).trans (splitScheme_sublist _))

theorem head?_lstrip (s : Str) : (lstrip '/' s).head? ≠ some '/' := by
  intro h
  have := List.head?_dropWhile_not (· == '/') s
  rw [lstrip] at h
  rw [h] at this
  cases this

/-- A parsed key holds nothing the parser deletes and no leading slash. -/
theorem parseS3Uri_key {uri : Str} {p : ParsedS3Uri} (h : parseS3Uri uri = .ok p) :
    (∀ c ∈ p.key, isRemoved c = false) ∧ p.key.head? ≠ some '/' := by
  rw [parseS3Uri] at h
  cases hr : urlparse uri with
  | error e => simp [hr] at h
  | ok r =>
    simp only [hr] at h
    split_ifs at h
    obtain rfl := Except.ok.inj h
    exact ⟨fun c hc => (mem_clean.1 ((urlparse_path hr).subset
      ((List.dropWhile_sublist _).subset hc))).2, head?_lstrip _⟩

end Accel.Model
