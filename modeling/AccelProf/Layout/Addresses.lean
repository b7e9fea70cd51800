import AccelProf.Model.Download
import AccelProf.Spec.Reference
import AccelProf.Store.Effects

/-! One identity, one prefix: what uploads, listings, copies, deletions, holds, sweeps and mounts
take the place of a run's artifacts to be. -/

namespace Accel.Model
open Data Program Prog

variable {store : Store} {i : Identity} {runId mount : Str}

theorem getLast?_of_safeIdBody {s : Str} (h : safeIdBody s = true) : s.getLast? ≠ some '\n' := by
  intro hl
  have hplain := (plain_of_safeIdBody h).2 '\n' (List.mem_of_getLast? hl)
  exact absurd hplain (by decide)

theorem safeIdBody_iff_getLast (h : safeId i.aliasName = true) :
    safeIdBody i.aliasName = true ↔ i.aliasName.getLast? ≠ some '\n' := by
  refine ⟨getLast?_of_safeIdBody, fun hl => ?_⟩
  rcases matchAnchored_iff.1 h with hb | ⟨t, ht, -⟩
  · exact hb
  · exact absurd (by rw [ht, List.getLast?_concat]) hl

/-- Every path of the code takes `pre` for the place of the run's artifacts, and none of them
raises: what `upload_artifacts` writes under, what the functions of a URI derive from it, where the
retention marker is written and looked for, and what `locate` joins to the mount. -/
structure SamePlace (store : Store) (mount aliasName runId : Str) : Prop where
  uploads : ∀ fs artifacts,
    (uploadArtifacts fs store.traceBucket.name aliasName runId artifacts).Uses
    (UploadCall store.traceBucket.name (runPrefix aliasName runId <+: ·))
  derives : parseS3Uri (artifactsUri store.traceBucket.name aliasName runId) =
    .ok ⟨store.traceBucket.name, runPrefix aliasName runId⟩
  lists : listPrefix (artifactsUri store.traceBucket.name aliasName runId) =
    (request (.listObjects store.traceBucket.name (runPrefix aliasName runId))).bind fun pages =>
      ret (pages.collect.map Listed.key)
  copies : ∀ cwd destDir,
    downloadPrefix cwd (artifactsUri store.traceBucket.name aliasName runId) destDir =
    (asTransfer (listPrefix (artifactsUri store.traceBucket.name aliasName runId))).bind fun keys =>
      keys.foldlM (downloadKey cwd ⟨store.traceBucket.name, runPrefix aliasName runId⟩
        (realpath cwd destDir)) []
  deletes : deletePrefix (artifactsUri store.traceBucket.name aliasName runId) =
    (listPrefix (artifactsUri store.traceBucket.name aliasName runId)).bind fun keys =>
      (slices deleteBatch keys).foldlM (deleteOne store.traceBucket.name) 0
  marks : writeRetentionMarker (artifactsUri store.traceBucket.name aliasName runId) =
    (request (.putObject store.traceBucket.name (runPrefix aliasName runId ++ retentionMarker)
      [])).bind
      fun _ => ret (runPrefix aliasName runId ++ retentionMarker)
  scans : scanMarkerKey (runPrefix aliasName runId) = runPrefix aliasName runId ++ retentionMarker
  identifies : runIdOf (runPrefix aliasName runId) = runId
  locates : ∀ run : RunRef,
    run.artifactsUri = some (artifactsUri store.traceBucket.name aliasName runId) →
    locate store run = .ok (pathJoin mount (runPrefix aliasName runId))

/-- An upload sends and checks keys below the run's prefix only. -/
theorem uses_uploadArtifacts_of {P : Call → Prop} (fs : LocalFs) (b aliasName runId : Str)
    (artifacts : Option (List Str))
    (hsend : ∀ path key body hex, runPrefix aliasName runId <+: key →
      P (.uploadFile path b key body hex))
    (hhead : ∀ key, runPrefix aliasName runId <+: key → P (.headObject b key))
    (hsleep : ∀ t, P (.sleep t)) :
    (uploadArtifacts fs b aliasName runId artifacts).Uses P := by
  unfold uploadArtifacts
  cases hplan : planArtifacts fs (runPrefix aliasName runId) (artifacts.getD []) with
  | error e => trivial
  | ok planned =>
    have hpre := (planArtifacts_ok hplan).2
    have hup : (uploadPlanned fs b planned []).Uses P :=
      uses_uploadPlanned_of fs (fun f hf body hex => hsend _ _ body hex (hpre f hf))
        (fun f hf => hhead _ (hpre f hf)) hsleep []
    exact hup.bind fun _ => trivial

theorem uses_uploadArtifacts (fs : LocalFs) (b aliasName runId : Str)
    (artifacts : Option (List Str)) :
    (uploadArtifacts fs b aliasName runId artifacts).Uses
      (UploadCall b (runPrefix aliasName runId <+: ·)) :=
  uses_uploadArtifacts_of fs b aliasName runId artifacts (fun _ _ _ _ h => ⟨rfl, h⟩)
    (fun _ _ => trivial)
    fun _ => trivial

theorem markerKey_of_parse {uri aliasName b : Str} (hid : isRunId runId = true)
    (hparse : parseS3Uri uri = .ok ⟨b, runPrefix aliasName runId⟩) :
    markerKey uri = .ok (b, runPrefix aliasName runId ++ retentionMarker) := by
  have hkey : runPrefix aliasName runId ≠ [] := by
    unfold runPrefix
    simp
  unfold markerKey
  rw [hparse]
  show (if runPrefix aliasName runId = [] then _ else _) = _
  rw [if_neg hkey]
  show Except.ok (_, scanMarkerKey (runPrefix aliasName runId)) = _
  rw [scanMarkerKey_runPrefix (not_mem_of_isRunId hid) (isRunId_ne_nil hid)]

/-- Once the URI parses back to the prefix, every path follows it. -/
theorem samePlace_of_parse {aliasName : Str} (hs : '/' ∉ aliasName)
    (hid : isRunId runId = true) (hm : store.mountBase = some mount) (hne : mount ≠ [])
    (hparse : parseS3Uri (artifactsUri store.traceBucket.name aliasName runId) =
      .ok ⟨store.traceBucket.name, runPrefix aliasName runId⟩) :
        SamePlace store mount aliasName runId := by
  have hslash := not_mem_of_isRunId hid
  have hempty := isRunId_ne_nil hid
  have hkey : runPrefix aliasName runId ≠ [] := by
    unfold runPrefix
    simp
  have huri : artifactsUri store.traceBucket.name aliasName runId ≠ [] := by
    unfold artifactsUri s3Uri
    simp
  refine ⟨fun fs artifacts => uses_uploadArtifacts .., hparse, ?_, fun cwd destDir => ?_, ?_, ?_,
    scanMarkerKey_runPrefix hslash hempty, ?_, fun run hrun => ?_⟩
  · unfold listPrefix
    rw [hparse]
    rfl
  · unfold downloadPrefix
    rw [hparse]
    rfl
  · unfold deletePrefix
    rw [hparse]
    show (if runPrefix aliasName runId = [] then _ else _) = _
    rw [if_neg hkey]
    rfl
  · have hmarker := markerKey_of_parse hid hparse
    unfold writeRetentionMarker
    rw [hmarker]
    rfl
  · rw [runIdOf_runPrefix hs hslash, if_neg hempty]
  · unfold locate localDirForMount
    simp only [hm, hrun, Option.getD_some, hne, huri, if_false, hparse, ne_eq, not_true_eq_false]

/-- All paths of the code agree on the place of a run's artifacts, unless its alias is one of those
that only the `$` of the identity check lets through. -/
theorem samePlace_iff (hi : validateIdentity i = .ok ()) (hid : isRunId runId = true)
    (hm : store.mountBase = some mount) (hne : mount ≠ []) :
    SamePlace store mount i.aliasName runId ↔ i.aliasName.getLast? ≠ some '\n' := by
  constructor
  · intro h hl
    -- the parser deletes the line feed, so no key it returns is the prefix
    have hmem : '\n' ∈ runPrefix i.aliasName runId :=
      List.mem_append_left _ (List.mem_of_getLast? hl)
    exact absurd ((parseS3Uri_key h.derives).1 '\n' hmem) (by decide)
  · intro hl
    have hbody := (safeIdBody_iff_getLast (safeId_of_validate hi)).2 hl
    obtain ⟨ha, hplain⟩ := plain_of_safeIdBody hbody
    exact samePlace_of_parse (slash_not_mem_of_plain hplain) hid hm hne
      (parse_artifactsUri hplain (plain_of_isRunId hid) store.traceBucket ha)

def mountedStore : Store := ⟨sampleBucket, some "/mnt".toList, none⟩

theorem samePlace_iff_plain : SamePlace mountedStore "/mnt".toList ['a'] (sampleRunId '0') :=
  (samePlace_iff (i := ⟨['a'], "cpu".toList, ['r'], ['w']⟩) rfl (by decide) rfl (by decide)).2
    (by decide)

/-- The alias `a` with a line feed is accepted; its artifacts are uploaded under one prefix and
looked for under that of the alias `a`. -/
theorem samePlace_splits : ∃ (i : Identity) (runId : Str), i.aliasName = ['a', '\n'] ∧
    validateIdentity i = .ok () ∧
    isRunId runId = true ∧
    parseS3Uri (artifactsUri mountedStore.traceBucket.name i.aliasName runId) =
      .ok ⟨mountedStore.traceBucket.name, runPrefix ['a'] runId⟩ ∧
    ¬ SamePlace mountedStore "/mnt".toList i.aliasName runId := by
  have hparse :
      parseS3Uri (artifactsUri mountedStore.traceBucket.name ['a', '\n'] (sampleRunId '0')) =
      .ok ⟨mountedStore.traceBucket.name, runPrefix ['a'] (sampleRunId '0')⟩ := by
    rw [artifactsUri, parseS3Uri_runPrefix _ (runPrefix_isTwoField (by decide) (by decide))]
    rfl
  refine ⟨⟨['a', '\n'], "cpu".toList, ['r'], ['w']⟩, sampleRunId '0', rfl, rfl, rfl, hparse,
    fun h => ?_⟩
  have hkey := congrArg ParsedS3Uri.key (Except.ok.inj (h.derives.symm.trans hparse))
  exact absurd hkey (by decide)

end Accel.Model
