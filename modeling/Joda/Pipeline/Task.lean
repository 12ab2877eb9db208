import Mathlib.Tactic.Common

/-! # Tasks of a pipeline

The tasks a query plan is made of, by the name each is registered under (`JODA_REGISTER_PIPELINE_TASK`),
and the two tables of `Compatability.h`: `TaskRequirement.get t` is the task that `t` needs after it,
`TaskPrerequisite.get t` the one it needs before it. The similarity parsers and the storage tasks
are in neither. -/

namespace Joda.Pipeline.Task

/-- The registered task names. -/
inductive TaskId where
  | lsListFile | listFile | lsListDir | listDir
  | lsFileOpener | unformattedFileOpener | lsStreamReader
  | inStream | urlStream
  | defaultTextParser | pathJaccardSimilarityTextParser | attributeJaccardSimilarityTextParser
  | defaultStreamParser | pathJaccardSimilarityStreamParser | attributeJaccardSimilarityStreamParser
  | storageSender | storageReceiver
  | choosePipeline | asPipeline | aggPipeline | filterAggPipeline | windowAgg | aggMerger
  | jsonStringifier | writeFile | writeFiles | writeOutStream
  | loadJoin | loadJoinFiles | loadJoinFileParser | storeJoin | innerJoin | outerJoin
  deriving DecidableEq, Repr

open TaskId

/-- The task that has to come after `t`, if any. -/
def TaskRequirement.get : TaskId → Option TaskId
  | lsListFile => some lsFileOpener
  | lsListDir => some lsFileOpener
  | lsFileOpener => some lsStreamReader
  | listFile => some unformattedFileOpener
  | listDir => some unformattedFileOpener
  | unformattedFileOpener => some defaultStreamParser
  | inStream => some defaultStreamParser
  | urlStream => some defaultStreamParser
  | lsStreamReader => some defaultTextParser
  | choosePipeline => some asPipeline
  | aggPipeline => some aggMerger
  | filterAggPipeline => some aggMerger
  | loadJoinFiles => some loadJoinFileParser
  | _ => none

/-- The task that has to come before `t`, if any. -/
def TaskPrerequisite.get : TaskId → Option TaskId
  | writeFile => some jsonStringifier
  | writeFiles => some jsonStringifier
  | writeOutStream => some jsonStringifier
  | _ => none

/-- `t` does what the task `r` is required for: it is `r`, or a parser that stands for the default
parser `r` under a similarity measure. -/
def Fulfils (r t : TaskId) : Prop :=
  t = r ∨
    (r = defaultTextParser ∧
      (t = pathJaccardSimilarityTextParser ∨ t = attributeJaccardSimilarityTextParser)) ∨
    (r = defaultStreamParser ∧
      (t = pathJaccardSimilarityStreamParser ∨ t = attributeJaccardSimilarityStreamParser))

instance (r t : TaskId) : Decidable (Fulfils r t) := by unfold Fulfils; infer_instance

end Joda.Pipeline.Task
