import PhraseIndex.Decimal.Text
import PhraseIndex.Metrics.Basic

/-!
# The metrics text

The text exposition format: families by name, each with a line of help and one of its type, then a line for every
sample. A family without samples is left out. Buckets of a histogram are cumulative and end with one for everything.
-/

namespace PhraseIndex.Metrics

/-- The samples of a family. -/
inductive Samples
  | counter (value : Float)
  | gauge (value : Float)
  /-- Counters told apart by the value of one label. -/
  | labelled (label : String) (values : List (String × Float))
  | histogram (value : Histogram)

structure Family where
  name : String
  help : String
  samples : Samples

def number (x : Float) : String := Decimal.Layout.plain.write x

/-- A sample's name with one label. -/
def withLabel (name label value : String) : String := name ++ "\x7b" ++ label ++ "=\"" ++ value ++ "\"\x7d"

namespace Samples

def type : Samples → String
  | counter _ | labelled .. => "counter"
  | gauge _ => "gauge"
  | histogram _ => "histogram"

def lines (name : String) : Samples → List String
  | counter value | gauge value => [name ++ " " ++ number value]
  | labelled label values => values.map fun (v, x) => withLabel name label v ++ " " ++ number x
  | histogram h =>
    let bucket (bound : String) (n : Nat) : String := withLabel (name ++ "_bucket") "le" bound ++ " " ++ toString n
    h.cumulative.map (fun (bound, n) => bucket (number bound) n) ++
      [bucket "+Inf" h.count, name ++ "_sum " ++ number h.sum, name ++ "_count " ++ toString h.count]

end Samples

def Family.lines (f : Family) : List String :=
  match f.samples.lines f.name with
  | [] => []
  | samples => ["# HELP " ++ f.name ++ " " ++ f.help, "# TYPE " ++ f.name ++ " " ++ f.samples.type] ++ samples

/-- Queries by side, in the order of the labels. -/
def queriesBySide (m : Metrics) : List (String × Float) :=
  (m.sourceQueries.toList.map fun x => (Side.source.name, x)) ++
    (m.targetQueries.toList.map fun x => (Side.target.name, x))

/-- All families, by name. -/
def families (m : Metrics) : List Family :=
  [ ⟨"sapt_batch_errors_total", "Total number of update batches that failed to commit", .counter m.batchErrors⟩,
    ⟨"sapt_batch_size", "Number of sentence pairs per update batch", .histogram m.batchSize⟩,
    ⟨"sapt_batches_committed_total", "Total number of update batches committed", .counter m.batchesCommitted⟩,
    ⟨"sapt_commit_latency_seconds", "Update batch commit latency", .histogram m.commitLatency⟩,
    ⟨"sapt_count_queries_total", "Total number of count queries by side", .labelled "side" m.queriesBySide⟩,
    ⟨"sapt_domains_deleted_total", "Total number of domains marked for deletion", .counter m.domainsDeleted⟩,
    ⟨"sapt_gc_keys_swept_total", "Total number of index keys removed by garbage collection", .counter m.keysSwept⟩,
    ⟨"sapt_index_size_bytes", "On-disk size of the index keyspace", .gauge m.indexBytes⟩,
    ⟨"sapt_posting_fragments_merged_total", "Total number of posting list fragments merged into the index",
      .counter m.fragmentsMerged⟩,
    ⟨"sapt_sentences_appended_total", "Total number of sentence pairs appended to corpus storage",
      .counter m.sentencesAppended⟩,
    ⟨"sapt_storage_size_bytes", "Bytes appended to corpus storage", .gauge m.storageBytes⟩ ]

/-- The whole text, line by line. -/
def text (m : Metrics) : List String := m.families.flatMap Family.lines

end PhraseIndex.Metrics
