import AccelProf.Layout.Addresses
import AccelProf.Layout.Paths

/-! Where a located directory lies: the key of a URI is joined to the mount as it is, so the path
stays below the mount exactly when the normalised key climbs out of no directory that it does not
enter again. -/

namespace Accel.Model
open Data

variable {m xs comps : List Str} {key mount : Str} {u : ℕ}

/-- The components of a relative path that is normalised on its own; only the first ones can be
`..`. -/
def relComponents (p : Str) : List Str := (p.splitOn '/').foldl (normStep false) []

/-- How many directories a normalised key climbs before it enters any. -/
def climbs (key : Str) : ℕ := ((relComponents key).takeWhile (· = dotDot)).length

/-- What a normalised key enters after that. -/
def enters (key : Str) : List Str := (relComponents key).dropWhile (· = dotDot)

/-- Joined to a directory with the components `m`, the key enters again all it climbs out of, and
more. -/
def StaysUnder (m : List Str) (key : Str) : Prop :=
  m.drop (m.length - climbs key) <+: enters key ∧ m.drop (m.length - climbs key) ≠ enters key

instance (m : List Str) (key : Str) : Decidable (StaysUnder m key) :=
  inferInstanceAs (Decidable (_ ∧ _))

/-- One component, for the key on its own and for the key joined to `m`. -/
theorem normStep_relative {comp : Str} (hm : ∀ n ∈ m, IsName n) (hxs : ∀ n ∈ xs, IsName n)
    (hc : '/' ∉ comp) :
    ∃ u' xs', (∀ n ∈ xs', IsName n) ∧
      normStep false (List.replicate u dotDot ++ xs) comp = List.replicate u' dotDot ++ xs' ∧
      normStep true (m.take (m.length - u) ++ xs) comp = m.take (m.length - u') ++ xs' := by
  by_cases hskip : comp = [] ∨ comp = dot
  · refine ⟨u, xs, hxs, ?_, ?_⟩
    · unfold normStep
      rw [if_pos hskip]
    · unfold normStep
      rw [if_pos hskip]
  by_cases hup : comp = dotDot
  swap
  · have hn : IsName comp := ⟨fun h => hskip (.inl h), fun h => hskip (.inr h), hup, hc⟩
    refine ⟨u, xs ++ [comp], by simpa [or_imp, forall_and, hn] using hxs, ?_, ?_⟩
    · rw [normStep_name hn, List.append_assoc]
    · rw [normStep_name hn, List.append_assoc]
  subst hup
  have hlast : ∀ {ys : List Str}, (∀ n ∈ ys, IsName n) → ys.getLast? ≠ some dotDot := fun hys h =>
    (hys _ (List.mem_of_getLast? h)).2.2.1 rfl
  rcases List.eq_nil_or_concat' xs with rfl | ⟨ys, n, rfl⟩
  · -- nothing entered yet: one directory more is climbed
    refine ⟨u + 1, [], by simp, ?_, ?_⟩
    · have hclimb : (!false = true ∧ List.replicate u dotDot ++ [] = []) ∨
          (List.replicate u dotDot ++ []).getLast? = some dotDot := by
        cases u with
        | zero => exact .inl ⟨rfl, rfl⟩
        | succ u =>
          right
          rw [List.append_nil, List.replicate_succ']
          simp
      unfold normStep
      rw [if_neg hskip, if_pos (.inr hclimb), List.append_nil, List.append_nil,
        List.replicate_succ']
    · have htake : ∀ n ∈ m.take (m.length - u), IsName n :=
        fun n hn => hm n (List.mem_of_mem_take hn)
      unfold normStep
      rw [List.append_nil, if_neg hskip, if_neg (by simp [hlast htake]), List.append_nil,
        List.dropLast_eq_take,
        List.take_take, List.length_take]
      congr 1
      omega
  · -- the last directory entered is left
    have hys : ∀ n ∈ ys, IsName n := fun k hk => hxs k (by simp [hk])
    have hn : n ≠ dotDot := (hxs n (by simp)).2.2.1
    refine ⟨u, ys, hys, ?_, ?_⟩
    · unfold normStep
      rw [if_neg hskip, if_neg (by simp [hn]), ← List.append_assoc, List.dropLast_concat]
    · unfold normStep
      rw [if_neg hskip, if_neg (by simp [hn]), ← List.append_assoc, List.dropLast_concat]

theorem foldl_relative (hm : ∀ n ∈ m, IsName n) (hxs : ∀ n ∈ xs, IsName n)
    (hcomps : ∀ c ∈ comps, '/' ∉ c) :
    ∃ u' xs', (∀ n ∈ xs', IsName n) ∧
      comps.foldl (normStep false) (List.replicate u dotDot ++ xs) =
        List.replicate u' dotDot ++ xs' ∧
      comps.foldl (normStep true) (m.take (m.length - u) ++ xs) =
        m.take (m.length - u') ++ xs' := by
  induction comps generalizing u xs with
  | nil => exact ⟨u, xs, hxs, rfl, rfl⟩
  | cons comp comps ih =>
    obtain ⟨hc, hrest⟩ := List.forall_mem_cons.1 hcomps
    obtain ⟨u₁, xs₁, hxs₁, hrel, habs⟩ := normStep_relative (u := u) hm hxs hc
    rw [List.foldl_cons, List.foldl_cons, hrel, habs]
    exact ih hxs₁ hrest

theorem takeWhile_climbs (hxs : ∀ n ∈ xs, IsName n) :
    (List.replicate u dotDot ++ xs).takeWhile (· = dotDot) = List.replicate u dotDot ∧
      (List.replicate u dotDot ++ xs).dropWhile (· = dotDot) = xs := by
  have hhead : xs.takeWhile (· = dotDot) = [] ∧ xs.dropWhile (· = dotDot) = xs := by
    cases xs with
    | nil => exact ⟨rfl, rfl⟩
    | cons x xs =>
      have hx : x ≠ dotDot := (hxs x (by simp)).2.2.1
      exact ⟨List.takeWhile_cons_of_neg (by simpa using hx),
        List.dropWhile_cons_of_neg (by simpa using hx)⟩
  induction u with
  | zero => exact hhead
  | succ u ih =>
    rw [List.replicate_succ, List.cons_append, List.takeWhile_cons_of_pos (by simp),
      List.dropWhile_cons_of_pos (by simp)]
    exact ⟨congrArg _ ih.1, ih.2⟩

/-- A key joined to a directory: what is left of the directory's components, then what the key
enters. -/
theorem foldl_key (hm : ∀ n ∈ m, IsName n) (key : Str) :
    (key.splitOn '/').foldl (normStep true) m = m.take (m.length - climbs key) ++ enters key := by
  have hcomps : ∀ c ∈ key.splitOn '/', '/' ∉ c := fun c hc => slash_not_mem_splitOn hc
  obtain ⟨u, xs, hxs, hrel, habs⟩ := foldl_relative (u := 0) hm (List.forall_mem_nil IsName) hcomps
  have hkey : relComponents key = List.replicate u dotDot ++ xs := hrel
  obtain ⟨htake, hdrop⟩ := takeWhile_climbs (u := u) hxs
  unfold climbs enters
  rw [hkey, htake, hdrop, List.length_replicate]
  simpa using habs

theorem below_iff_staysUnder (m : List Str) (key : Str) :
    (m <+: m.take (m.length - climbs key) ++ enters key ∧
      m.take (m.length - climbs key) ++ enters key ≠ m) ↔
      StaysUnder m key := by
  have hprefix : m.take (m.length - climbs key) ++ m.drop (m.length - climbs key) <+:
      m.take (m.length - climbs key) ++ enters key ↔
        m.drop (m.length - climbs key) <+: enters key :=
    List.prefix_append_right_inj _
  have hequal : m.take (m.length - climbs key) ++ m.drop (m.length - climbs key) =
      m.take (m.length - climbs key) ++ enters key ↔ m.drop (m.length - climbs key) = enters key :=
    List.append_right_inj _
  rw [List.take_append_drop] at hprefix hequal
  exact and_congr hprefix (not_congr (eq_comm.trans hequal))

/-- An exception, or a path strictly below the mount; and an exception for any other bucket. -/
def LocatesBelow (store : Store) (cwd mount : Str) (run : RunRef) : Except PyExc Str → Prop
  | .error _ => True
  | .ok dir => (realComponents cwd mount <+: realComponents cwd dir ∧
      realComponents cwd dir ≠ realComponents cwd mount) ∧
      ∃ key, parseS3Uri (run.artifactsUri.getD []) = .ok ⟨store.traceBucket.name, key⟩

/-- `locate` raises, always when the URI names no key of the store's bucket, or joins the key to the
mount. -/
theorem locate_cases {store : Store} (hmount : store.mountBase = some mount) (hne : mount ≠ [])
    (run : RunRef) :
    ((∃ e, locate store run = .error e) ∧
      ∀ key, parseS3Uri (run.artifactsUri.getD []) ≠ .ok ⟨store.traceBucket.name, key⟩) ∨
    ∃ key, parseS3Uri (run.artifactsUri.getD []) = .ok ⟨store.traceBucket.name, key⟩ ∧
      locate store run = .ok (pathJoin mount key) := by
  unfold locate localDirForMount
  simp only [hmount, Option.getD_some, if_neg hne]
  by_cases huri : run.artifactsUri.getD [] = []
  · rw [if_pos huri, huri]
    exact .inl ⟨⟨_, rfl⟩, fun key h => by cases h⟩
  rw [if_neg huri]
  cases hparse : parseS3Uri (run.artifactsUri.getD []) with
  | error e => exact .inl ⟨⟨e, rfl⟩, fun key h => by cases h⟩
  | ok parsed =>
    obtain ⟨bucket, key⟩ := parsed
    by_cases hbucket : bucket = store.traceBucket.name
    · subst hbucket
      exact .inr ⟨key, rfl, if_neg (not_not.2 rfl)⟩
    · exact .inl ⟨⟨_, if_pos hbucket⟩,
        fun key' h => hbucket (ParsedS3Uri.mk.inj (Except.ok.inj h)).1⟩

/-- What `locate` returns lies strictly below the mount exactly when the key of the URI, normalised,
enters again every directory of the mount that it climbs out of, and one more. -/
theorem locates_below_iff {store : Store} {run : RunRef} (cwd : Str)
    (hmount : store.mountBase = some mount)
    (habs : mount.head? = some '/') : LocatesBelow store cwd mount run (locate store run) ↔
      ∀ key, parseS3Uri (run.artifactsUri.getD []) = .ok ⟨store.traceBucket.name, key⟩ →
        StaysUnder (realComponents cwd mount) key := by
  have hne : mount ≠ [] := by
    rintro rfl
    cases habs
  rcases locate_cases hmount hne run with ⟨⟨e, he⟩, hno⟩ | ⟨key, hparse, hok⟩
  · rw [he]
    exact iff_of_true trivial fun key h => absurd h (hno key)
  have hdir : realComponents cwd (pathJoin mount key) =
      (realComponents cwd mount).take ((realComponents cwd mount).length - climbs key) ++
        enters key := by
    rw [realComponents_pathJoin cwd hne (parseS3Uri_key hparse).2]
    exact foldl_key (realComponents_names cwd mount) key
  have hbelow : (realComponents cwd mount <+: realComponents cwd (pathJoin mount key) ∧
      realComponents cwd (pathJoin mount key) ≠ realComponents cwd mount) ↔
        StaysUnder (realComponents cwd mount) key := by
    rw [hdir]
    exact below_iff_staysUnder _ key
  rw [hok]
  constructor
  · rintro ⟨h, -⟩ key' hparse'
    obtain rfl := (ParsedS3Uri.mk.inj (Except.ok.inj (hparse.symm.trans hparse'))).2
    exact hbelow.1 h
  · exact fun h => ⟨hbelow.2 (h key hparse), key, hparse⟩

end Accel.Model
