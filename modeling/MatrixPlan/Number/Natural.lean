/-!
# Natural — powers and sums of natural numbers

Powers and sums are those of the core library in every module, whatever else a module imports, so a definition and the
theorems about it speak of the same terms.
-/
namespace MatrixPlan

@[default_instance 20000]
instance (priority := high) natPow : Pow Nat Nat := instPowNat

instance (priority := high) natZero : Zero Nat := ⟨0⟩

end MatrixPlan
