import AccelProf.Data.Dict
import AccelProf.Model.AnalyzerConfig
import AccelProf.Model.Store
import AccelProf.Model.Tools

/-! Benchmark iterations (`examples/benchmark_iteration`): what a serving benchmark measured, under
names that do not depend on the tool, logged as a run. -/

namespace Accel.Model
open Data Program Prog

/-- What is raised before the store is asked for anything. -/
inductive BenchExc where
  | overflow
  | noAdapter (framework : Str) (registered : List Str)

section Metrics

/-- `_finite`. An integer that no double is near makes `math.isfinite` raise. -/
def finite : Json → Except BenchExc Bool
  | .int n => (PyVal.toFloat (.int n)).elim (.error .overflow) fun x => .ok x.isFinite
  | .float x => .ok x.isFinite
  | _ => .ok false

/-- `float(v)` of a number. -/
def Json.toFloat : Json → Option PyFloat
  | .int n => PyVal.toFloat (.int n)
  | .float x => some x
  | _ => none

/-- `float(v)` if `_finite(v)` -/
def reading (v : Json) : Except BenchExc (Option PyFloat) := do
  if ← finite v then return v.toFloat else return none

/-- A latency distribution in milliseconds; `null` stands for `None`. -/
structure Stat where
  mean : Json
  p50 : Json
  p99 : Json

def Stat.fields (s : Stat) (pre : Str) : List (Str × Json) :=
  [(pre ++ "_mean".toList, s.mean), (pre ++ "_p50".toList, s.p50), (pre ++ "_p99".toList, s.p99)]

def Stat.flatten (s : Stat) (pre : Str) : Except BenchExc (Dict Str PyFloat) :=
  Dict.collect reading .empty (s.fields pre)

structure BenchmarkMetrics where
  framework : Str
  requestThroughputReqS : Json
  outputThroughputTokS : Json
  totalTokenThroughputTokS : Json
  ttftMs : Stat
  tpotMs : Stat
  itlMs : Stat
  e2eMs : Stat
  completed : Json
  durationS : Json
  accuracy : Json
  extra : Dict Str Json

def accuracyMetric : Str := "accuracy".toList
def ttftPrefix : Str := "ttft_ms".toList
def tpotPrefix : Str := "tpot_ms".toList
def itlPrefix : Str := "itl_ms".toList
def e2ePrefix : Str := "e2e_ms".toList

/-- `f"extra_{k}"` -/
def extraName (k : Str) : Str := "extra_".toList ++ k

namespace BenchmarkMetrics

def core (b : BenchmarkMetrics) : List (Str × Json) :=
  [("request_throughput_req_s".toList, b.requestThroughputReqS),
   ("output_throughput_tok_s".toList, b.outputThroughputTokS),
   ("total_token_throughput_tok_s".toList, b.totalTokenThroughputTokS),
   ("completed".toList, b.completed), ("duration_s".toList, b.durationS),
   (accuracyMetric, b.accuracy)]

def extras (b : BenchmarkMetrics) : List (Str × Json) :=
  b.extra.items.map fun e => (extraName e.1, e.2)

def asMetrics (b : BenchmarkMetrics) : Except BenchExc (Dict Str PyFloat) := do
  let m ← Dict.collect reading .empty b.core
  let ttft ← b.ttftMs.flatten ttftPrefix
  let m := m.update ttft.items
  let tpot ← b.tpotMs.flatten tpotPrefix
  let m := m.update tpot.items
  let itl ← b.itlMs.flatten itlPrefix
  let m := m.update itl.items
  let e2e ← b.e2eMs.flatten e2ePrefix
  let m := m.update e2e.items
  Dict.collect reading m b.extras

end BenchmarkMetrics
end Metrics

section Adapters

structure StatKeys where
  mean : Str
  median : Str
  p99 : Str

/-- The keys under which a tool reports what has a canonical name. -/
structure ResultKeys where
  requestThroughput : Str
  outputThroughput : Str
  totalThroughput : Str
  ttft : StatKeys
  tpot : StatKeys
  itl : StatKeys
  e2e : StatKeys
  completed : Str
  duration : Str

/-- `raw.get(key)` -/
def rawGet (raw : Dict Str Json) (key : Str) : Json := (raw.get key).getD .null

def StatKeys.stat (keys : StatKeys) (raw : Dict Str Json) : Stat :=
  ⟨rawGet raw keys.mean, rawGet raw keys.median, rawGet raw keys.p99⟩

structure MetricAdapter where
  framework : Str
  normalize : Dict Str Json → BenchmarkMetrics

/-- An adapter that reads `keys` and passes on everything that is not in `used`. -/
def keyedAdapter (framework : Str) (keys : ResultKeys) (used : List Str) : MetricAdapter where
  framework := framework
  normalize raw :=
    { framework := framework
      requestThroughputReqS := rawGet raw keys.requestThroughput
      outputThroughputTokS := rawGet raw keys.outputThroughput
      totalTokenThroughputTokS := rawGet raw keys.totalThroughput
      ttftMs := keys.ttft.stat raw
      tpotMs := keys.tpot.stat raw
      itlMs := keys.itl.stat raw
      e2eMs := keys.e2e.stat raw
      completed := rawGet raw keys.completed
      durationS := rawGet raw keys.duration
      accuracy := .null
      extra := raw.filterKeys fun k => k ∉ used }

def ttftKeys : StatKeys :=
  ⟨"mean_ttft_ms".toList, "median_ttft_ms".toList, "p99_ttft_ms".toList⟩
def tpotKeys : StatKeys :=
  ⟨"mean_tpot_ms".toList, "median_tpot_ms".toList, "p99_tpot_ms".toList⟩
def itlKeys : StatKeys :=
  ⟨"mean_itl_ms".toList, "median_itl_ms".toList, "p99_itl_ms".toList⟩

def sglangKeys : ResultKeys where
  requestThroughput := "request_throughput".toList
  outputThroughput := "output_throughput".toList
  totalThroughput := "total_throughput".toList
  ttft := ttftKeys
  tpot := tpotKeys
  itl := itlKeys
  e2e := ⟨"mean_e2e_latency_ms".toList, "median_e2e_latency_ms".toList,
    "p99_e2e_latency_ms".toList⟩
  completed := "completed".toList
  duration := "duration".toList

def sglangUsed : List Str :=
  ["request_throughput".toList, "output_throughput".toList, "total_throughput".toList,
   "mean_ttft_ms".toList, "median_ttft_ms".toList, "p99_ttft_ms".toList,
   "mean_tpot_ms".toList, "median_tpot_ms".toList, "p99_tpot_ms".toList,
   "mean_itl_ms".toList, "median_itl_ms".toList, "p99_itl_ms".toList,
   "mean_e2e_latency_ms".toList, "median_e2e_latency_ms".toList, "p99_e2e_latency_ms".toList,
   "completed".toList, "duration".toList]

def sglangAdapter : MetricAdapter := keyedAdapter "sglang".toList sglangKeys sglangUsed

def vllmKeys : ResultKeys where
  requestThroughput := "request_throughput".toList
  outputThroughput := "output_throughput".toList
  totalThroughput := "total_token_throughput".toList
  ttft := ttftKeys
  tpot := tpotKeys
  itl := itlKeys
  e2e := ⟨"mean_e2el_ms".toList, "median_e2el_ms".toList, "p99_e2el_ms".toList⟩
  completed := "completed".toList
  duration := "duration".toList

def vllmUsed : List Str :=
  ["request_throughput".toList, "output_throughput".toList, "total_token_throughput".toList,
   "mean_ttft_ms".toList, "median_ttft_ms".toList, "p99_ttft_ms".toList,
   "mean_tpot_ms".toList, "median_tpot_ms".toList, "p99_tpot_ms".toList,
   "mean_itl_ms".toList, "median_itl_ms".toList, "p99_itl_ms".toList,
   "mean_e2el_ms".toList, "median_e2el_ms".toList, "p99_e2el_ms".toList,
   "completed".toList, "duration".toList]

def vllmAdapter : MetricAdapter := keyedAdapter "vllm".toList vllmKeys vllmUsed

def register (reg : Dict Str MetricAdapter) (adapter : MetricAdapter) : Dict Str MetricAdapter :=
  reg.set adapter.framework adapter

/-- `_REGISTRY` once `adapters` is imported. -/
def bundledAdapters : Dict Str MetricAdapter :=
  register (register .empty sglangAdapter) vllmAdapter

def registered (reg : Dict Str MetricAdapter) : List Str :=
  (reg.items.map Prod.fst).insertionSort (· ≤ ·)

def getAdapter (reg : Dict Str MetricAdapter) (framework : Str) :
    Except BenchExc MetricAdapter :=
  match reg.get framework with
  | some adapter => .ok adapter
  | none => .error (.noAdapter framework (registered reg))

end Adapters

section Iteration

def tagMax : ℕ := 450

/-- `_tag_value`, with `fmt` for the text of a float. -/
def tagValue (fmt : PyFloat → Str) : Json → Option Str
  | .str s => some (s.take tagMax)
  | .bool b => some ((if b then "True".toList else "False".toList).take tagMax)
  | .int n => some ((decimal n).take tagMax)
  | .float x => some ((fmt x).take tagMax)
  | _ => none

/-- What a caller passes to `log_benchmark_iteration` besides the store. -/
structure Iteration where
  identity : Identity
  framework : Str
  result : Dict Str Json
  runNo : PyVal
  tool : Option Str
  tags : Option PyDict
  params : Option PyDict
  accuracy : Option PyFloat
  artifacts : Option (List Str)

def runNoTag : Str := "run_no".toList
def frameworkTag : Str := "framework".toList

/-- `tool or framework` -/
def Iteration.adapterName (it : Iteration) : Str :=
  match it.tool with
  | some tool => if tool = [] then it.framework else tool
  | none => it.framework

/-- `{"run_no": str(run_no), "framework": framework, **(tags or {})}` -/
def Iteration.ownTags (it : Iteration) : Dict Str PyVal :=
  ((Dict.empty.set runNoTag (.str it.runNo.toStr)).set frameworkTag (.str it.framework)).update
    (dictItems it.tags)

/-- One round of the loop over the extras. -/
def surface (fmt : PyFloat → Str) (m : Dict Str PyFloat) (tags : Dict Str PyVal)
    (extra : Str × Json) : Dict Str PyVal :=
  if (m.get (extraName extra.1)).isSome then tags
  else
    match tagValue fmt extra.2 with
    | some text => tags.setDefault (extraName extra.1) (.str text)
    | none => tags

/-- A dict as the store takes it. -/
def toPyDict {ν : Type} (val : ν → PyVal) (d : Dict Str ν) : PyDict where
  items := d.items.map fun e => (e.1, val e.2)
  nodup := by
    rw [List.map_map]
    exact d.nodup

/-- What `log_benchmark_iteration` makes of its arguments for the store. -/
def iterationArgs (fmt : PyFloat → Str) (reg : Dict Str MetricAdapter) (it : Iteration) :
    Except BenchExc LogArgs := do
  let adapter ← getAdapter reg it.adapterName
  let metrics := adapter.normalize it.result
  let m ← metrics.asMetrics
  let m := it.accuracy.elim m (m.set accuracyMetric)
  let tags := metrics.extra.items.foldl (surface fmt m) it.ownTags
  return ⟨it.identity, some (toPyDict (fun x => .float x (fmt x)) m), it.params,
    some (toPyDict id tags), it.artifacts⟩

/-- The calls of the store come after everything that can go wrong with the result. -/
def logBenchmarkIteration (fmt : PyFloat → Str) (reg : Dict Str MetricAdapter) (store : Store)
    (fs : LocalFs) (it : Iteration) : Except BenchExc (Action Str) :=
  (iterationArgs fmt reg it).map (log store fs)

end Iteration
end Accel.Model
