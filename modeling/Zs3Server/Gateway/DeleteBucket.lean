import Zs3Server.Gateway.ListPrefix

/-!
# Deleting a bucket

`DeleteBucket` without force deletes the directory of the bucket, with all that is below, if the size of
its ref is zero.  The size of a directory is the sum of the sizes of the files below it, so a bucket of
empty objects passes for an empty bucket.

* `deleteBucket` — the code;
* `deleteBucket_of_dir` — what it does to a bucket that is there;
* `deleteBucket_safe_iff` — it spares the objects of a bucket exactly if they are not all empty.
-/

namespace Zs3Server.Gateway.DeleteBucket

open Lib.ByteString
open Lib.GoPath
open Gateway.ListRefs
open Gateway.ListObjects

inductive BucketError where
  | cannotRemoveRoot
  | notBucket (bucketName : GoString)
  | bucketNotEmpty (bucket : GoString)
  | ref (err : RefError)
  deriving DecidableEq

/-- `DeleteBucket`: the paths that are deleted with all below, and the answer if `DoMultiOperation` of
them answers `done`.  `size` is the size of a ref. -/
def deleteBucket (getRefs : GetRefs RefError) (size : ORef → ℤ) (done : Except RefError Unit)
    (bucketName : GoString) (force : Bool) : List GoString × Except BucketError Unit :=
  if bucketName = rootBucketName then ([], .error .cannotRemoveRoot)
  else
    match getSingleRegularRef getRefs (join [lit "/", bucketName]) with
    | .error err => ([], .error (.ref err))
    | .ok ref =>
      if ref.type ≠ .dir then ([], .error (.notBucket bucketName))
      else if force ∨ size ref = 0 then
        ([join [lit "/", bucketName]], done.mapError .ref)
      else ([], .error (.bucketNotEmpty bucketName))

/-- What is left of a tree when some paths were deleted with all below. -/
def remaining (tree : RefTree) (deleted : List GoString) : List Entry :=
  tree.entries.filter fun e => !deleted.any fun p => e.path == p || (p ++ [slash]).isPrefixOf e.path

/-- **What is assumed of the sizes**: those of files are not negative, and that of a directory is the sum
of those of the files below. -/
structure Sizes (tree : RefTree) (size : ORef → ℤ) : Prop where
  file : ∀ e ∈ tree.entries, e.type = .file → 0 ≤ size e.toRef
  dir : ∀ e ∈ tree.entries, e.type = .dir →
    size e.toRef = ((filesBelow tree e.names).map fun f => size f.toRef).sum

/-- What a client expects who does not force anything. -/
def SparesObjects (tree : RefTree) (bucket : GoString)
    (out : List GoString × Except BucketError Unit) : Prop :=
  (out.1 ≠ [] → bucketFiles tree bucket = []) ∧
    (bucketFiles tree bucket ≠ [] →
      out.2 = .error (.bucketNotEmpty bucket) ∧ remaining tree out.1 = tree.entries)

section

variable {tree : RefTree} {getRefs : GetRefs RefError} {size : ORef → ℤ} {bucket : GoString}

/-- **A bucket that is there** is deleted if its files have no bytes. -/
theorem deleteBucket_of_dir (hlook : ServesLookup tree getRefs) (hsize : Sizes tree size)
    (hroot : bucket ≠ rootBucketName) (hdir : ⟨[bucket], .dir⟩ ∈ tree.entries)
    (done : Except RefError Unit) :
    deleteBucket getRefs size done bucket false =
      if ((bucketFiles tree bucket).map fun f => size f.toRef).sum = 0 then
        ([absPath [bucket]], done.mapError .ref)
      else ([], .error (.bucketNotEmpty bucket)) := by
  have hv : ∀ c ∈ [bucket], ValidName c := tree.valid _ hdir
  have hpath : join [lit "/", bucket] = absPath [bucket] := by
    have hname := hv bucket (by simp)
    have hjoin := join_root (a := []) (by simp) bucket
    rw [split_of_no_slash hname.no_slash, List.reverse_nil, cleanNames_valid true hv] at hjoin
    exact hjoin
  obtain ⟨oResult, hok, hrefs⟩ := hlook.found _ hdir
  have hsingle := getSingleRegularRef_found hv hok hrefs
  have hsum := hsize.dir _ hdir rfl
  have hfiles : bucketFiles tree bucket = filesBelow tree [bucket] := by
    rw [bucketFiles, bucketDir, if_neg hroot]
  have htype : (Entry.toRef ⟨[bucket], .dir⟩).type = .dir := rfl
  rw [deleteBucket, if_neg hroot, hpath, hsingle, hfiles]
  simp only [htype, hsum]
  simp

theorem size_nonneg (hsize : Sizes tree size) :
    ∀ x ∈ (bucketFiles tree bucket).map fun f => size f.toRef, 0 ≤ x := by
  intro x hx
  obtain ⟨f, hf, rfl⟩ := List.mem_map.mp hx
  obtain ⟨hmem, hfile, -⟩ := mem_filesBelow_iff.mp hf
  exact hsize.file f hmem hfile

end

/-- **The objects are spared exactly if they are not all empty**, or if there are none. -/
theorem deleteBucket_safe_iff (tree : RefTree) (getRefs : GetRefs RefError)
    (hlook : ServesLookup tree getRefs) (size : ORef → ℤ) (hsize : Sizes tree size)
    (bucket : GoString) (hroot : bucket ≠ rootBucketName) (hdir : ⟨[bucket], .dir⟩ ∈ tree.entries)
    (done : Except RefError Unit) :
    SparesObjects tree bucket (deleteBucket getRefs size done bucket false) ↔
      (bucketFiles tree bucket = [] ∨ ∃ f ∈ bucketFiles tree bucket, size f.toRef ≠ 0) := by
  have hzero : ((bucketFiles tree bucket).map fun f => size f.toRef).sum = 0 ↔
      ∀ f ∈ bucketFiles tree bucket, size f.toRef = 0 := by
    constructor
    · intro hsum f hf
      exact List.all_zero_of_le_zero_le_of_sum_eq_zero (size_nonneg hsize) hsum
        (List.mem_map.mpr ⟨f, hf, rfl⟩)
    · intro hall
      refine List.sum_eq_zero fun x hx => ?_
      obtain ⟨f, hf, rfl⟩ := List.mem_map.mp hx
      exact hall f hf
  rw [deleteBucket_of_dir hlook hsize hroot hdir]
  by_cases hall : ∀ f ∈ bucketFiles tree bucket, size f.toRef = 0
  · rw [if_pos (hzero.mpr hall)]
    constructor
    · intro h
      exact Or.inl (h.1 (by simp))
    · rintro (hnil | ⟨f, hf, hne⟩)
      · exact ⟨fun _ => hnil, fun h => absurd hnil h⟩
      · exact absurd (hall f hf) hne
  · rw [if_neg fun h => hall (hzero.mp h)]
    push Not at hall
    refine ⟨fun _ => Or.inr hall, fun _ => ⟨fun h => absurd rfl h, fun _ => ⟨rfl, ?_⟩⟩⟩
    simp [remaining]

/-- A bucket with two files of one byte. -/
theorem deleteBucket_safe_iff_prefixTree :
    SparesObjects prefixTree (lit "b")
      (deleteBucket (serveRefs prefixTree)
        (fun ref => if ref.path = lit "/b" then 2 else 1) (.ok ()) (lit "b") false) :=
  (deleteBucket_safe_iff prefixTree (serveRefs prefixTree) (serveRefs_servesLookup prefixTree)
    (fun ref => if ref.path = lit "/b" then 2 else 1) ⟨by decide, by decide⟩ (lit "b") (by decide)
    (by decide) (.ok ())).mpr (Or.inr (by decide))

/-- **A bucket of two empty objects is deleted** with them. -/
theorem deleteBucket_destroys :
    Sizes prefixTree (fun _ => 0) ∧ (bucketFiles prefixTree (lit "b")).length = 2 ∧
      deleteBucket (serveRefs prefixTree) (fun _ => 0) (.ok ()) (lit "b") false =
        ([lit "/b"], .ok ()) ∧ remaining prefixTree [lit "/b"] = [] := by
  exact ⟨⟨by decide, by decide⟩, by decide, by decide, by decide⟩

end Zs3Server.Gateway.DeleteBucket
