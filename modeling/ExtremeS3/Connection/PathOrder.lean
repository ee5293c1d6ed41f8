import ExtremeS3.Lib.KeyOrder
import ExtremeS3.Sync.Paths

/-!
# The order of paths

`do_ls` and `get_file_info` key a map by `s3_path`. Its `operator<` says that any one of the three
components is less, whatever the others are; so it orders the keys of a map only where all three
components agree (`less_keys_iff`), as they do in one bucket (`less_keys_bucket`).
-/

namespace ExtremeS3

/-- `s3_path::operator<`. -/
def S3Path.less (left right : S3Path) : Bool :=
  left.zone < right.zone || left.bucket < right.bucket || left.path < right.path

/-- No component is greater. -/
def S3Path.Below (a b : S3Path) : Prop :=
  a.zone ≤ b.zone ∧ a.bucket ≤ b.bucket ∧ a.path ≤ b.path

/-- `operator<` says that the components are not the other way round. -/
theorem S3Path.less_iff {a b : S3Path} : a.less b ↔ ¬ b.Below a := by
  simp only [less, Below, Bool.or_eq_true, decide_eq_true_eq, not_and_or, not_le, or_assoc]

/-- Two paths that are below each other are one. -/
theorem S3Path.Below.antisymm {a b : S3Path} (hab : a.Below b) (hba : b.Below a) : a = b := by
  obtain ⟨zone, bucket, path⟩ := a
  obtain ⟨zone', bucket', path'⟩ := b
  obtain ⟨h₁, h₂, h₃⟩ := hab
  obtain ⟨h₁', h₂', h₃'⟩ := hba
  rw [S3Path.mk.injEq]
  exact ⟨le_antisymm h₁ h₁', le_antisymm h₂ h₂', le_antisymm h₃ h₃'⟩

/-- The paths in a set can key a map exactly when of any two of them one has no component greater
than the other. -/
theorem less_keys_iff (K : Set S3Path) :
    KeyOrder (fun a b : S3Path => a.less b = true) K ↔ IsChain S3Path.Below K := by
  have hless : (fun a b : S3Path => a.less b = true) = fun a b => ¬ b.Below a := by
    funext a b
    exact propext S3Path.less_iff
  rw [hless]
  refine keyOrder_not_ge_iff (fun a => ⟨le_refl _, le_refl _, le_refl _⟩) ?_
    fun _ _ => S3Path.Below.antisymm
  intro a b c hab hbc
  exact ⟨hab.1.trans hbc.1, hab.2.1.trans hbc.2.1, hab.2.2.trans hbc.2.2⟩

/-- The path of an object. -/
def objectInB : S3Path := ⟨"s3".toList, "b".toList, "/x".toList⟩

/-- The path of an object in another bucket. -/
def objectInC : S3Path := ⟨"s3".toList, "c".toList, "/a".toList⟩

/-- Each of them is less than the other, so not all paths can key a map. -/
theorem less_not_asymm : objectInB.less objectInC = true ∧ objectInC.less objectInB = true ∧
    ¬ KeyOrder (fun a b : S3Path => a.less b = true) Set.univ := by
  have hbc : objectInB.less objectInC = true := by decide
  have hcb : objectInC.less objectInB = true := by decide
  exact ⟨hbc, hcb, fun h => h.asymm _ trivial _ trivial hbc hcb⟩

/-- The paths in one bucket can key a map. -/
theorem less_keys_bucket (zone bucket : Str) :
    KeyOrder (fun a b : S3Path => a.less b = true) {p | p.zone = zone ∧ p.bucket = bucket} := by
  have hchain : IsChain S3Path.Below {p | p.zone = zone ∧ p.bucket = bucket} := by
    rintro a ⟨haz, hab⟩ b ⟨hbz, hbb⟩ -
    have hzone := haz.trans hbz.symm
    have hbucket := hab.trans hbb.symm
    rcases le_total a.path b.path with h | h
    · exact .inl ⟨hzone.le, hbucket.le, h⟩
    · exact .inr ⟨hzone.ge, hbucket.ge, h⟩
  simp only [S3Path.less_iff]
  refine IsChain.keyOrder (fun a => ⟨le_refl _, le_refl _, le_refl _⟩) ?_
    (fun _ _ => S3Path.Below.antisymm) hchain
  intro a b c hab hbc
  exact ⟨hab.1.trans hbc.1, hab.2.1.trans hbc.2.1, hab.2.2.trans hbc.2.2⟩

end ExtremeS3
