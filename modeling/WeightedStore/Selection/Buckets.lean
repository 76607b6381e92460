import WeightedStore.Selection.Listing

/-!
Selections made of whole buckets, kept under their labels in ascending order.
-/

namespace WeightedStore

structure Bucket where
  entries : List Entry
  total : Binary32
  deriving DecidableEq

structure BucketSelection where
  name : String
  buckets : List (String × Bucket)
  deriving DecidableEq

namespace BucketSelection

def put (label : String) (bucket : Bucket) : List (String × Bucket) → List (String × Bucket)
  | [] => [(label, bucket)]
  | (l, b) :: rest =>
    if label < l then (label, bucket) :: (l, b) :: rest
    else if l < label then (l, b) :: put label bucket rest
    else (label, bucket) :: rest

def ofBuckets (name : String) (buckets : List (String × Bucket)) : BucketSelection :=
  ⟨name, buckets.foldl (fun sorted (label, bucket) => put label bucket sorted) []⟩

def labels (s : BucketSelection) : List String := s.buckets.map Prod.fst

def entries (s : BucketSelection) : List Entry := s.buckets.flatMap fun (_, b) => b.entries

def total (s : BucketSelection) : Binary32 := .sum (s.buckets.map fun (_, b) => b.total)

def intersection (l r : BucketSelection) : BucketSelection :=
  ⟨l.name, l.buckets.filter fun (label, _) => r.labels.contains label⟩

/-- The buckets of both; where both have a label, the bucket of the first. -/
def union (l r : BucketSelection) : BucketSelection :=
  ⟨l.name, (r.buckets.filter fun (label, _) => !l.labels.contains label).foldl
    (fun sorted (label, bucket) => put label bucket sorted) l.buckets⟩

def toListing (s : BucketSelection) : Listing := .ofEntries s.name s.entries

end BucketSelection

end WeightedStore
