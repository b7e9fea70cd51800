import AccelProf.Model.Benchmark

/-! A tool's result becomes metrics by a renaming of its fields: no finite number is lost, and none
comes from anywhere else. -/

namespace Accel.Model
open Data

section Reading

/-- An integer beyond the range of a double. -/
def Huge (v : Json) : Prop := ∃ n, v = .int n ∧ PyVal.toFloat (.int n) = none

/-- The finite number that a value is, as a double. -/
def measured (v : Json) : Option PyFloat := (reading v).toOption.join

theorem finite_of_toFloat_int {n : ℤ} {x : PyFloat} (h : PyVal.toFloat (.int n) = some x) :
    x.isFinite = true := by
  unfold PyVal.toFloat at h
  simp only at h
  split_ifs at h
  obtain rfl := Option.some.inj h
  rfl

theorem reading_eq (v : Json) :
    reading v = (finite v).map fun b => if b then v.toFloat else none := by
  unfold reading
  cases finite v with
  | error e => rfl
  | ok b => cases b <;> rfl

theorem reading_int_huge {n : ℤ} (h : PyVal.toFloat (.int n) = none) :
    reading (.int n) = .error .overflow := by
  rw [reading_eq, finite, h]
  rfl

theorem reading_int {n : ℤ} {x : PyFloat} (h : PyVal.toFloat (.int n) = some x) :
    reading (.int n) = .ok (some x) := by
  have hx : (Json.int n).toFloat = some x := h
  rw [reading_eq, finite, h, Option.elim_some, finite_of_toFloat_int h, hx]
  rfl

theorem reading_float (x : PyFloat) :
    reading (.float x) = .ok (if x.isFinite then some x else none) := by
  rw [reading_eq]
  rfl

theorem reading_ok {v : Json} (h : ¬ Huge v) : reading v = .ok (measured v) := by
  have hok : ∀ o, reading v = .ok o → reading v = .ok (measured v) := by
    intro o ho
    unfold measured
    rw [ho]
    rfl
  cases v with
  | int n =>
    cases hn : PyVal.toFloat (.int n) with
    | none => exact absurd ⟨n, rfl, hn⟩ h
    | some x => exact hok _ (reading_int hn)
  | float x => exact hok _ (reading_float x)
  | null => rfl
  | bool b => rfl
  | str s => rfl
  | arr items => rfl
  | obj members => rfl

theorem reading_error {v : Json} {e : BenchExc} (h : reading v = .error e) :
    e = .overflow ∧ Huge v := by
  have hhuge : Huge v := by
    by_contra hn
    rw [reading_ok hn] at h
    cases h
  obtain ⟨n, rfl, hn⟩ := hhuge
  rw [reading_int_huge hn] at h
  exact ⟨(Except.error.inj h).symm, n, rfl, hn⟩

theorem measured_finite {v : Json} {x : PyFloat} (h : measured v = some x) :
    x.isFinite = true := by
  cases v with
  | int n =>
    cases hn : PyVal.toFloat (.int n) with
    | none =>
      unfold measured at h
      rw [reading_int_huge hn] at h
      cases h
    | some y =>
      unfold measured at h
      rw [reading_int hn] at h
      obtain rfl : y = x := Option.some.inj h
      exact finite_of_toFloat_int hn
  | float y =>
    unfold measured at h
    rw [reading_float] at h
    change (if y.isFinite then some y else none) = some x at h
    split_ifs at h with hy
    obtain rfl := Option.some.inj h
    exact hy
  | null => cases h
  | bool b => cases h
  | str s => cases h
  | arr items => cases h
  | obj members => cases h

end Reading

section Slots

inductive Quantile where
  | mean
  | p50
  | p99
  deriving DecidableEq

inductive Latency where
  | ttft
  | tpot
  | itl
  | e2e
  deriving DecidableEq

/-- What every tool is compared by. -/
inductive Slot where
  | requestThroughput
  | outputThroughput
  | totalThroughput
  | completed
  | duration
  | latency (l : Latency) (q : Quantile)
  deriving DecidableEq

def Quantile.suffix : Quantile → Str
  | mean => "_mean".toList
  | p50 => "_p50".toList
  | p99 => "_p99".toList

def Latency.metric : Latency → Str
  | ttft => ttftPrefix
  | tpot => tpotPrefix
  | itl => itlPrefix
  | e2e => e2ePrefix

def Slot.metric : Slot → Str
  | requestThroughput => "request_throughput_req_s".toList
  | outputThroughput => "output_throughput_tok_s".toList
  | totalThroughput => "total_token_throughput_tok_s".toList
  | completed => "completed".toList
  | duration => "duration_s".toList
  | latency l q => l.metric ++ q.suffix

def Slot.all : List Slot :=
  [.requestThroughput, .outputThroughput, .totalThroughput, .completed, .duration,
   .latency .ttft .mean, .latency .ttft .p50, .latency .ttft .p99,
   .latency .tpot .mean, .latency .tpot .p50, .latency .tpot .p99,
   .latency .itl .mean, .latency .itl .p50, .latency .itl .p99,
   .latency .e2e .mean, .latency .e2e .p50, .latency .e2e .p99]

theorem Slot.mem_all (slot : Slot) : slot ∈ Slot.all := by
  cases slot with
  | latency l q => cases l <;> cases q <;> simp [Slot.all]
  | _ => simp [Slot.all]

def Stat.at : Stat → Quantile → Json
  | s, .mean => s.mean
  | s, .p50 => s.p50
  | s, .p99 => s.p99

def BenchmarkMetrics.stat (b : BenchmarkMetrics) : Latency → Stat
  | .ttft => b.ttftMs
  | .tpot => b.tpotMs
  | .itl => b.itlMs
  | .e2e => b.e2eMs

def BenchmarkMetrics.at (b : BenchmarkMetrics) : Slot → Json
  | .requestThroughput => b.requestThroughputReqS
  | .outputThroughput => b.outputThroughputTokS
  | .totalThroughput => b.totalTokenThroughputTokS
  | .completed => b.completed
  | .duration => b.durationS
  | .latency l q => (b.stat l).at q

def StatKeys.at : StatKeys → Quantile → Str
  | keys, .mean => keys.mean
  | keys, .p50 => keys.median
  | keys, .p99 => keys.p99

def ResultKeys.stat (keys : ResultKeys) : Latency → StatKeys
  | .ttft => keys.ttft
  | .tpot => keys.tpot
  | .itl => keys.itl
  | .e2e => keys.e2e

/-- The field of a result that fills a slot. -/
def ResultKeys.field (keys : ResultKeys) : Slot → Str
  | .requestThroughput => keys.requestThroughput
  | .outputThroughput => keys.outputThroughput
  | .totalThroughput => keys.totalThroughput
  | .completed => keys.completed
  | .duration => keys.duration
  | .latency l q => (keys.stat l).at q

theorem keyedAdapter_at (framework : Str) (keys : ResultKeys) (used : List Str)
    (raw : Dict Str Json) (slot : Slot) :
    ((keyedAdapter framework keys used).normalize raw).at slot = rawGet raw (keys.field slot) := by
  cases slot with
  | latency l q => cases l <;> cases q <;> rfl
  | _ => rfl

theorem not_extraName {s k : Str} (h : s.take 6 ≠ "extra_".toList) : s ≠ extraName k := by
  rintro rfl
  exact h (List.take_left' rfl)

theorem Slot.metric_ne_extraName (slot : Slot) (k : Str) : slot.metric ≠ extraName k := by
  apply not_extraName
  cases slot with
  | latency l q => cases l <;> cases q <;> decide
  | _ => decide

theorem accuracyMetric_ne_extraName (k : Str) : accuracyMetric ≠ extraName k :=
  not_extraName (by decide)

theorem extraName_injective : Function.Injective extraName := by
  intro k k' h
  exact List.append_cancel_left h

theorem Slot.metric_nodup : (accuracyMetric :: Slot.all.map Slot.metric).Nodup := by decide +kernel

theorem Slot.metric_injective : Function.Injective Slot.metric := by
  intro a b h
  have hnd := (List.nodup_cons.1 Slot.metric_nodup).2
  exact List.inj_on_of_nodup_map hnd (Slot.mem_all a) (Slot.mem_all b) h

theorem Slot.metric_ne_accuracy (slot : Slot) : slot.metric ≠ accuracyMetric := by
  intro h
  apply (List.nodup_cons.1 Slot.metric_nodup).1
  rw [← h]
  exact List.mem_map_of_mem slot.mem_all

end Slots

section Flat

variable {b : BenchmarkMetrics} {m : Dict Str PyFloat} {k : Str}

/-- What is under `k` in a list of named values. -/
def pick (items : List (Str × Json)) (k : Str) : Option PyFloat := (items.lookup k).bind measured

theorem pick_none {items : List (Str × Json)} (h : ∀ e ∈ items, k ≠ e.1) : pick items k = none := by
  have hlookup : items.lookup k = none := by
    apply List.lookup_eq_none_iff.2
    intro e he
    exact bne_iff_ne.2 (h e he)
  rw [pick, hlookup, Option.bind_none]

def Slot.counts : List Slot :=
  [.requestThroughput, .outputThroughput, .totalThroughput, .completed, .duration]

def Latency.slots (l : Latency) : List Slot := [.latency l .mean, .latency l .p50, .latency l .p99]

def BenchmarkMetrics.named (b : BenchmarkMetrics) (slots : List Slot) : List (Str × Json) :=
  slots.map fun slot => (slot.metric, b.at slot)

theorem core_eq (b : BenchmarkMetrics) :
    b.core = b.named Slot.counts ++ [(accuracyMetric, b.accuracy)] := rfl

theorem fields_eq (b : BenchmarkMetrics) (l : Latency) :
    (b.stat l).fields l.metric = b.named l.slots := by cases l <;> rfl

theorem pick_named (slots : List Slot) (slot : Slot) :
    pick (b.named slots) slot.metric = if slot ∈ slots then measured (b.at slot) else none := by
  induction slots with
  | nil => rfl
  | cons s slots ih =>
    unfold pick BenchmarkMetrics.named at ih ⊢
    rw [List.map_cons, List.lookup_cons]
    by_cases hs : slot = s
    · rw [hs, beq_self_eq_true, if_pos List.mem_cons_self]
      rfl
    · have hmetric : slot.metric ≠ s.metric := fun h => hs (Slot.metric_injective h)
      rw [beq_false_of_ne hmetric, ih]
      simp only [List.mem_cons, hs, false_or]

theorem pick_named_other (slots : List Slot) (h : ∀ slot : Slot, k ≠ slot.metric) :
    pick (b.named slots) k = none := by
  apply pick_none
  intro e he
  obtain ⟨slot, -, rfl⟩ := List.mem_map.1 he
  exact h slot

theorem named_nodup {slots : List Slot} (h : slots.Nodup) :
    ((b.named slots).map Prod.fst).Nodup := by
  unfold BenchmarkMetrics.named
  rw [List.map_map]
  exact h.map Slot.metric_injective

theorem core_nodup (b : BenchmarkMetrics) : (b.core.map Prod.fst).Nodup := by
  rw [core_eq, List.map_append]
  apply (named_nodup (by decide)).append (List.nodup_singleton _)
  intro k hk hk'
  obtain ⟨e, he, rfl⟩ := List.mem_map.1 hk
  obtain ⟨slot, -, rfl⟩ := List.mem_map.1 he
  exact slot.metric_ne_accuracy (List.mem_singleton.1 hk')

theorem extras_nodup (b : BenchmarkMetrics) : (b.extras.map Prod.fst).Nodup := by
  have hmap : b.extras.map Prod.fst = (b.extra.items.map Prod.fst).map extraName := by
    unfold BenchmarkMetrics.extras
    rw [List.map_map, List.map_map]
    rfl
  rw [hmap]
  exact b.extra.nodup.map extraName_injective

theorem pick_extras (b : BenchmarkMetrics) (k : Str) :
    pick b.extras (extraName k) = (b.extra.get k).bind measured := by
  unfold pick BenchmarkMetrics.extras Dict.get
  congr 1
  induction b.extra.items with
  | nil => rfl
  | cons e es ih =>
    rw [List.map_cons, List.lookup_cons, List.lookup_cons, ih]
    by_cases hk : k = e.1
    · rw [hk, beq_self_eq_true, beq_self_eq_true]
    · have hname : extraName k ≠ extraName e.1 := fun h => hk (extraName_injective h)
      rw [beq_false_of_ne hk, beq_false_of_ne hname]

theorem pick_extras_other (h : ∀ k', k ≠ extraName k') : pick b.extras k = none := by
  apply pick_none
  intro e he
  obtain ⟨x, -, rfl⟩ := List.mem_map.1 he
  exact h x.1

theorem get_collected {d d' : Dict Str PyFloat} {items : List (Str × Json)}
    (hnd : (items.map Prod.fst).Nodup) (h : Dict.collect reading d items = .ok d') (k : Str) :
    d'.get k = (pick items k).or (d.get k) := Dict.get_collect hnd h k

theorem get_flatten {l : Latency} {d : Dict Str PyFloat}
    (h : (b.stat l).flatten l.metric = .ok d) (k : Str) : d.get k = pick (b.named l.slots) k := by
  unfold Stat.flatten at h
  rw [fields_eq] at h
  have hnd : l.slots.Nodup := by cases l <;> decide
  rw [get_collected (named_nodup hnd) h, Dict.get_empty, Option.or_none]

/-- The flat dict reads off, for each name, the last group of values that has it. -/
theorem get_asMetrics (h : b.asMetrics = .ok m) (k : Str) :
    m.get k = (pick b.extras k).or ((pick (b.named (Latency.slots .e2e)) k).or
      ((pick (b.named (Latency.slots .itl)) k).or ((pick (b.named (Latency.slots .tpot)) k).or
        ((pick (b.named (Latency.slots .ttft)) k).or (pick b.core k))))) := by
  obtain ⟨core, hcore, h⟩ := except_bind_ok.1 h
  obtain ⟨ttft, httft, h⟩ := except_bind_ok.1 h
  obtain ⟨tpot, htpot, h⟩ := except_bind_ok.1 h
  obtain ⟨itl, hitl, h⟩ := except_bind_ok.1 h
  obtain ⟨e2e, he2e, h⟩ := except_bind_ok.1 h
  rw [get_collected (extras_nodup b) h, Dict.get_update, Dict.get_update, Dict.get_update,
    Dict.get_update, get_collected (core_nodup b) hcore, Dict.get_empty, Option.or_none,
    get_flatten (l := .ttft) httft, get_flatten (l := .tpot) htpot, get_flatten (l := .itl) hitl,
    get_flatten (l := .e2e) he2e]

theorem lookup_named_other (slots : List Slot) (h : ∀ slot : Slot, k ≠ slot.metric) :
    (b.named slots).lookup k = none := by
  apply List.lookup_eq_none_iff.2
  intro e he
  obtain ⟨slot, -, rfl⟩ := List.mem_map.1 he
  exact bne_iff_ne.2 (h slot)

theorem pick_core (slot : Slot) : pick b.core slot.metric =
    if slot ∈ Slot.counts then measured (b.at slot) else none := by
  have hlast : [(accuracyMetric, b.accuracy)].lookup slot.metric = none := by
    rw [List.lookup_cons, beq_false_of_ne slot.metric_ne_accuracy]
    rfl
  rw [← pick_named, pick, pick, core_eq, List.lookup_append, hlast, Option.or_none]

theorem get_metric (h : b.asMetrics = .ok m) (slot : Slot) :
    m.get slot.metric = measured (b.at slot) := by
  rw [get_asMetrics h, pick_extras_other slot.metric_ne_extraName, Option.none_or]
  simp only [pick_named, pick_core]
  cases slot with
  | latency l q => cases l <;> cases q <;> simp [Latency.slots, Slot.counts]
  | _ => simp [Latency.slots, Slot.counts]

theorem get_accuracy (h : b.asMetrics = .ok m) : m.get accuracyMetric = measured b.accuracy := by
  have hother : ∀ slot : Slot, accuracyMetric ≠ slot.metric :=
    fun slot h => slot.metric_ne_accuracy h.symm
  rw [get_asMetrics h, pick_extras_other accuracyMetric_ne_extraName, Option.none_or]
  simp only [pick_named_other _ hother, Option.none_or]
  rw [pick, core_eq, List.lookup_append, lookup_named_other _ hother, Option.none_or,
    List.lookup_cons, beq_self_eq_true]
  rfl

theorem get_extra (h : b.asMetrics = .ok m) (k : Str) :
    m.get (extraName k) = (b.extra.get k).bind measured := by
  have hother : ∀ slot : Slot, extraName k ≠ slot.metric :=
    fun slot h => slot.metric_ne_extraName k h.symm
  have hcore : pick b.core (extraName k) = none := by
    rw [pick, core_eq, List.lookup_append, lookup_named_other _ hother, Option.none_or,
      List.lookup_cons, beq_false_of_ne (accuracyMetric_ne_extraName k).symm]
    rfl
  rw [get_asMetrics h, pick_extras]
  simp only [pick_named_other _ hother, hcore, Option.or_none]

/-- Every metric has a canonical name or that of an extra. -/
theorem get_asMetrics_name {x : PyFloat} (h : b.asMetrics = .ok m) (hk : m.get k = some x) :
    (∃ slot : Slot, k = slot.metric) ∨ k = accuracyMetric ∨ ∃ k', k = extraName k' := by
  by_contra hn
  obtain ⟨hslot, hacc, hextra⟩ : (∀ slot : Slot, k ≠ slot.metric) ∧ k ≠ accuracyMetric ∧
      ∀ k', k ≠ extraName k' := by
    push Not at hn
    exact hn
  have hcore : pick b.core k = none := by
    rw [pick, core_eq, List.lookup_append, lookup_named_other _ hslot, Option.none_or,
      List.lookup_cons, beq_false_of_ne hacc]
    rfl
  rw [get_asMetrics h, pick_extras_other hextra] at hk
  simp only [pick_named_other _ hslot, hcore, Option.none_or] at hk
  cases hk

theorem asMetrics_finite {x : PyFloat} (h : b.asMetrics = .ok m) (hk : m.get k = some x) :
    x.isFinite = true := by
  rcases get_asMetrics_name h hk with ⟨slot, rfl⟩ | rfl | ⟨k', rfl⟩
  · rw [get_metric h] at hk
    exact measured_finite hk
  · rw [get_accuracy h] at hk
    exact measured_finite hk
  · rw [get_extra h] at hk
    obtain ⟨v, -, hv⟩ := Option.bind_eq_some_iff.1 hk
    exact measured_finite hv

/-- What looks at the values of `items` fails on one that is too large, and on nothing else. -/
def Overflows {α : Type} (items : List (Str × Json)) (x : Except BenchExc α) : Prop :=
  (∃ a, x = .ok a) ∧ (∀ e ∈ items, ¬ Huge e.2) ∨ x = .error .overflow ∧ ∃ e ∈ items, Huge e.2

theorem overflows_collect (d : Dict Str PyFloat) (items : List (Str × Json)) :
    Overflows items (Dict.collect reading d items) := by
  cases h : Dict.collect reading d items with
  | ok d' =>
    refine .inl ⟨⟨d', rfl⟩, fun e he hhuge => ?_⟩
    obtain ⟨o, ho⟩ := Dict.collect_ok_values h e he
    obtain ⟨n, hn, hbig⟩ := hhuge
    rw [hn, reading_int_huge hbig] at ho
    cases ho
  | error x =>
    obtain ⟨e, he, hx⟩ := Dict.collect_error h
    obtain ⟨rfl, hhuge⟩ := reading_error hx
    exact .inr ⟨rfl, e, he, hhuge⟩

theorem overflows_flatten (l : Latency) :
    Overflows (b.named l.slots) ((b.stat l).flatten l.metric) := by
  rw [← fields_eq]
  exact overflows_collect _ _

theorem Overflows.bind {α β : Type} {items more : List (Str × Json)} {x : Except BenchExc α}
    {f : α → Except BenchExc β} (hx : Overflows items x) (hf : ∀ a, Overflows more (f a)) :
    Overflows (items ++ more) (x >>= f) := by
  rcases hx with ⟨⟨a, rfl⟩, hitems⟩ | ⟨rfl, e, he, hhuge⟩
  · rcases hf a with ⟨⟨c, hc⟩, hmore⟩ | ⟨hc, e, he, hhuge⟩
    · exact .inl ⟨⟨c, hc⟩, List.forall_mem_append.2 ⟨hitems, hmore⟩⟩
    · exact .inr ⟨hc, e, List.mem_append_right _ he, hhuge⟩
  · exact .inr ⟨rfl, e, List.mem_append_left _ he, hhuge⟩

/-- All the values that are looked at. -/
def BenchmarkMetrics.values (b : BenchmarkMetrics) : List (Str × Json) :=
  b.core ++ (b.named (Latency.slots .ttft) ++ (b.named (Latency.slots .tpot) ++
    (b.named (Latency.slots .itl) ++ (b.named (Latency.slots .e2e) ++ b.extras))))

theorem overflows_asMetrics (b : BenchmarkMetrics) : Overflows b.values b.asMetrics := by
  apply (overflows_collect _ _).bind
  intro core
  apply (overflows_flatten .ttft).bind
  intro ttft
  apply (overflows_flatten .tpot).bind
  intro tpot
  apply (overflows_flatten .itl).bind
  intro itl
  apply (overflows_flatten .e2e).bind
  intro e2e
  exact overflows_collect _ _

theorem mem_named {slots : List Slot} {e : Str × Json} :
    e ∈ b.named slots ↔ ∃ slot ∈ slots, (slot.metric, b.at slot) = e := List.mem_map

theorem mem_values {e : Str × Json} : e ∈ b.values ↔ (∃ slot : Slot, (slot.metric, b.at slot) = e) ∨
    e = (accuracyMetric, b.accuracy) ∨ ∃ x ∈ b.extra.items, (extraName x.1, x.2) = e := by
  have hslot : ∀ slot : Slot, slot ∈ Slot.counts ∨ slot ∈ Latency.slots .ttft ∨
      slot ∈ Latency.slots .tpot ∨ slot ∈ Latency.slots .itl ∨ slot ∈ Latency.slots .e2e := by
    intro slot
    cases slot with
    | latency l q => cases l <;> cases q <;> decide
    | _ => decide
  unfold BenchmarkMetrics.values BenchmarkMetrics.extras
  rw [core_eq]
  simp only [List.mem_append, mem_named, List.mem_map, List.mem_singleton]
  constructor
  · rintro ((⟨slot, -, h⟩ | h) | ⟨slot, -, h⟩ | ⟨slot, -, h⟩ | ⟨slot, -, h⟩ | ⟨slot, -, h⟩ | h)
    · exact .inl ⟨slot, h⟩
    · exact .inr (.inl h)
    · exact .inl ⟨slot, h⟩
    · exact .inl ⟨slot, h⟩
    · exact .inl ⟨slot, h⟩
    · exact .inl ⟨slot, h⟩
    · exact .inr (.inr h)
  · rintro (⟨slot, h⟩ | h | h)
    · rcases hslot slot with hs | hs | hs | hs | hs
      · exact .inl (.inl ⟨slot, hs, h⟩)
      · exact .inr (.inl ⟨slot, hs, h⟩)
      · exact .inr (.inr (.inl ⟨slot, hs, h⟩))
      · exact .inr (.inr (.inr (.inl ⟨slot, hs, h⟩)))
      · exact .inr (.inr (.inr (.inr (.inl ⟨slot, hs, h⟩))))
    · exact .inl (.inr h)
    · exact .inr (.inr (.inr (.inr (.inr h))))

end Flat

section Renaming

variable {keys : ResultKeys} {used : List Str} {framework : Str} {raw : Dict Str Json}
  {m : Dict Str PyFloat}

/-- An adapter has one field for each slot, and uses no other. -/
structure Wired (keys : ResultKeys) (used : List Str) : Prop where
  nodup : (Slot.all.map keys.field).Nodup
  used : ∀ k, k ∈ used ↔ k ∈ Slot.all.map keys.field

theorem wired_sglang : Wired sglangKeys sglangUsed := by
  have hperm : sglangUsed.Perm (Slot.all.map sglangKeys.field) := by decide +kernel
  exact ⟨by decide +kernel, fun k => hperm.mem_iff⟩

theorem wired_vllm : Wired vllmKeys vllmUsed := by
  have hperm : vllmUsed.Perm (Slot.all.map vllmKeys.field) := by decide +kernel
  exact ⟨by decide +kernel, fun k => hperm.mem_iff⟩

/-- The metric that a field of a result becomes. -/
def ResultKeys.metric (keys : ResultKeys) (field : Str) : Str :=
  match Slot.all.find? fun slot => keys.field slot = field with
  | some slot => slot.metric
  | none => extraName field

theorem Wired.metric_field (hw : Wired keys used) (slot : Slot) :
    keys.metric (keys.field slot) = slot.metric := by
  unfold ResultKeys.metric
  cases hf : Slot.all.find? fun s => keys.field s = keys.field slot with
  | none =>
    have hno := List.find?_eq_none.1 hf slot slot.mem_all
    exact absurd (decide_eq_true rfl) hno
  | some s =>
    have heq : keys.field s = keys.field slot := by simpa using List.find?_some hf
    have hs : s = slot := List.inj_on_of_nodup_map hw.nodup s.mem_all slot.mem_all heq
    rw [hs]

theorem Wired.metric_extra (hw : Wired keys used) {field : Str} (h : field ∉ used) :
    keys.metric field = extraName field := by
  unfold ResultKeys.metric
  cases hf : Slot.all.find? fun s => keys.field s = field with
  | none => rfl
  | some s =>
    have heq : keys.field s = field := by simpa using List.find?_some hf
    exact absurd ((hw.used field).2 (List.mem_map.2 ⟨s, s.mem_all, heq⟩)) h

/-- A field fills a slot or is an extra. -/
theorem Wired.field_cases (hw : Wired keys used) (field : Str) :
    (∃ slot, field = keys.field slot) ∨ field ∉ used := by
  by_cases h : field ∈ used
  · obtain ⟨slot, -, hslot⟩ := List.mem_map.1 ((hw.used field).1 h)
    exact .inl ⟨slot, hslot.symm⟩
  · exact .inr h

theorem Wired.metric_injective (hw : Wired keys used) : Function.Injective keys.metric := by
  intro f f' h
  rcases hw.field_cases f with ⟨slot, rfl⟩ | hf <;>
    rcases hw.field_cases f' with ⟨slot', rfl⟩ | hf'
  · rw [hw.metric_field, hw.metric_field] at h
    rw [Slot.metric_injective h]
  · rw [hw.metric_field, hw.metric_extra hf'] at h
    exact absurd h (slot.metric_ne_extraName f')
  · rw [hw.metric_extra hf, hw.metric_field] at h
    exact absurd h.symm (slot'.metric_ne_extraName f)
  · rw [hw.metric_extra hf, hw.metric_extra hf'] at h
    exact extraName_injective h

theorem measured_rawGet (field : Str) :
    measured (rawGet raw field) = (raw.get field).bind measured := by
  unfold rawGet
  cases raw.get field with
  | none => rfl
  | some v => rfl

theorem keyedAdapter_extra (field : Str) :
    ((keyedAdapter framework keys used).normalize raw).extra.get field =
      if field ∉ used then raw.get field else none := by
  show (raw.filterKeys fun k => k ∉ used).get field = _
  rw [Dict.get_filterKeys]
  simp only [decide_eq_true_eq]

theorem not_huge_null : ¬ Huge .null := by
  rintro ⟨n, h, -⟩
  cases h

/-- What is too large among the values looked at is a field of the result, and conversely. -/
theorem Wired.huge_iff (hw : Wired keys used) :
    (∃ e ∈ ((keyedAdapter framework keys used).normalize raw).values, Huge e.2) ↔
      ∃ field v, raw.get field = some v ∧ Huge v := by
  constructor
  · rintro ⟨e, he, hhuge⟩
    rcases mem_values.1 he with ⟨slot, rfl⟩ | rfl | ⟨x, hx, rfl⟩
    · rw [keyedAdapter_at] at hhuge
      unfold rawGet at hhuge
      cases hv : raw.get (keys.field slot) with
      | none =>
        rw [hv] at hhuge
        exact absurd hhuge not_huge_null
      | some v =>
        rw [hv] at hhuge
        exact ⟨_, v, hv, hhuge⟩
    · exact absurd hhuge not_huge_null
    · exact ⟨x.1, x.2, Dict.get_eq_some.2 (List.mem_filter.1 hx).1, hhuge⟩
  · rintro ⟨field, v, hv, hhuge⟩
    rcases hw.field_cases field with ⟨slot, rfl⟩ | hf
    · refine ⟨_, mem_values.2 (.inl ⟨slot, rfl⟩), ?_⟩
      rw [keyedAdapter_at, rawGet, hv]
      exact hhuge
    · refine ⟨_, mem_values.2 (.inr (.inr ⟨(field, v), ?_, rfl⟩)), hhuge⟩
      exact List.mem_filter.2 ⟨Dict.get_eq_some.1 hv, decide_eq_true hf⟩

theorem Wired.get_metrics (hw : Wired keys used)
    (h : ((keyedAdapter framework keys used).normalize raw).asMetrics = .ok m) (field : Str) :
    m.get (keys.metric field) = (raw.get field).bind measured := by
  rcases hw.field_cases field with ⟨slot, rfl⟩ | hf
  · rw [hw.metric_field, get_metric h, keyedAdapter_at, measured_rawGet]
  · rw [hw.metric_extra hf, get_extra h, keyedAdapter_extra, if_pos hf]

theorem Wired.metric_of_name (hw : Wired keys used) {k : Str} {x : PyFloat}
    (h : ((keyedAdapter framework keys used).normalize raw).asMetrics = .ok m)
    (hk : m.get k = some x) : ∃ field, keys.metric field = k := by
  rcases get_asMetrics_name h hk with ⟨slot, rfl⟩ | rfl | ⟨k', rfl⟩
  · exact ⟨_, hw.metric_field slot⟩
  · rw [get_accuracy h] at hk
    cases hk
  · rw [get_extra h, keyedAdapter_extra] at hk
    by_cases hf : k' ∈ used
    · rw [if_neg (not_not.2 hf)] at hk
      cases hk
    · exact ⟨k', hw.metric_extra hf⟩

/-- The metrics are the result with its fields renamed: every finite number is found under a name
that belongs to its field alone and for a slot does not depend on the tool, and no metric comes from
anywhere else. One integer beyond every double is enough to raise. -/
theorem metrics_rename_fields (hw : Wired keys used) (framework : Str) (raw : Dict Str Json) :
    Function.Injective keys.metric ∧ (∀ slot, keys.metric (keys.field slot) = slot.metric) ∧
    ((∃ field v, raw.get field = some v ∧ Huge v) ∧
        ((keyedAdapter framework keys used).normalize raw).asMetrics = .error .overflow ∨
      (∀ field v, raw.get field = some v → ¬ Huge v) ∧
        ∃ m, ((keyedAdapter framework keys used).normalize raw).asMetrics = .ok m ∧
          (∀ field, m.get (keys.metric field) = (raw.get field).bind measured) ∧
          ∀ k x, m.get k = some x → x.isFinite = true ∧ ∃ field, keys.metric field = k) := by
  refine ⟨hw.metric_injective, hw.metric_field, ?_⟩
  rcases overflows_asMetrics ((keyedAdapter framework keys used).normalize raw) with
    ⟨⟨m, hm⟩, hfits⟩ | ⟨herr, hhuge⟩
  · right
    refine ⟨fun field v hv hhuge => ?_, m, hm, hw.get_metrics hm, fun k x hk => ?_⟩
    · obtain ⟨e, he, hbig⟩ := hw.huge_iff.2 ⟨field, v, hv, hhuge⟩
      exact hfits e he hbig
    · exact ⟨asMetrics_finite hm hk, hw.metric_of_name hm hk⟩
  · exact .inl ⟨hw.huge_iff.1 hhuge, herr⟩

/-- A result of an unthrottled run. -/
def sampleResult : Dict Str Json := Dict.empty.update
  [("backend".toList, .str "sglang".toList), ("request_rate".toList, .float .posInf),
   ("total_throughput".toList, .float (.finite 1600)),
   ("p99_e2e_latency_ms".toList, .float (.finite 3200)),
   ("concurrency".toList, .float (.finite (48 / 5))), ("itls".toList, .arr [])]

theorem sampleResult_fits {field : Str} {v : Json} (h : sampleResult.get field = some v) :
    ¬ Huge v := by
  rintro ⟨n, rfl, -⟩
  have hnone : ∀ e ∈ sampleResult.items, e.2 ≠ .int n := by
    intro e he
    fin_cases he <;> exact nofun
  exact hnone _ (Dict.get_eq_some.1 h) rfl

theorem metrics_rename_fields_sample :
    ∃ m, (sglangAdapter.normalize sampleResult).asMetrics = .ok m ∧
      m.get "e2e_ms_p99".toList = some (.finite 3200) ∧
      m.get "extra_request_rate".toList = none := by
  obtain ⟨-, -, ⟨⟨field, v, hv, hhuge⟩, -⟩ | ⟨-, m, hm, hget, -⟩⟩ :=
    metrics_rename_fields wired_sglang "sglang".toList sampleResult
  · exact absurd hhuge (sampleResult_fits hv)
  · exact ⟨m, hm, hget "p99_e2e_latency_ms".toList, hget "request_rate".toList⟩

end Renaming

end Accel.Model
