import MatrixPlan.Proofs.Matrix.Product
import MatrixPlan.Proofs.Session.Outcome
import MatrixPlan.Session.Attempt
/-!
# Attempt — where a run is stopped

A run is stopped at the first of its single steps that asks for too many words (`firstOverflow?`), and is `runAll` if
there is none.  Such a step makes a product of two matrices that are written out.  Its factors have their words, as they
have their cells; but the rows of one and the columns of the other may be too many together, and need no cell at all
when the inner extent is zero.
-/
namespace MatrixPlan

section unlessStopped

variable {α : Type} {stop : Option Overflow} {value : Unit → α}

theorem unlessStopped_eq_error_iff {e : Overflow} : unlessStopped stop value = .error e ↔ stop = some e := by
  cases stop <;> simp [unlessStopped]

theorem unlessStopped_eq_ok_iff {v : α} : unlessStopped stop value = .ok v ↔ stop = none ∧ value () = v := by
  cases stop <;> simp [unlessStopped]

end unlessStopped

namespace BitMatrix

variable {rows cols : UInt64}

theorem wordCount_le (rows cols : UInt64) : wordCount rows cols ≤ rows.toNat * cols.toNat :=
  Nat.mul_le_mul_left _ (wordsPerRow_le cols)

theorem overflow?_eq_none_iff : overflow? rows cols = none ↔ wordCount rows cols < wordLimit := by
  unfold overflow? wordLimit
  split
  · simp only [reduceCtorEq, false_iff]
    omega
  · split <;> simp <;> omega

/-- The number of words is no machine word. -/
theorem overflow?_eq_size_iff {rows' rowWords : UInt64} : overflow? rows cols = some (.size rows' rowWords) ↔
    2 ^ 64 ≤ wordCount rows cols ∧ rows' = rows ∧ rowWords = UInt64.ofNat (wordsPerRow cols) := by
  unfold overflow?
  split
  · rename_i h
    simp only [h, true_and, Option.some.injEq, Overflow.size.injEq, eq_comm]
  · rename_i h
    refine iff_of_false (fun hsize => ?_) fun hsize => h hsize.1
    split at hsize <;> cases hsize

end BitMatrix

namespace Dense

open BitMatrix (wordCount overflow? wordCount_le)

/-- A dense matrix has no more words than cells. -/
theorem wordCount_le_size (d : Dense) : wordCount d.rows d.cols ≤ d.values.size := by
  rw [d.size_eq_mul]
  exact wordCount_le d.rows d.cols

variable {a b : Dense}

/-- With an inner extent, there is a cell in each row on the left and in each column on the right. -/
theorem wordCount_product_le (h : a.cols = b.rows) (hinner : a.cols ≠ 0) :
    wordCount a.rows b.cols ≤ a.values.size * b.values.size := by
  have hpos : 0 < a.cols.toNat := Nat.pos_of_ne_zero fun hzero => hinner (UInt64.toNat_inj.1 hzero)
  calc wordCount a.rows b.cols ≤ a.rows.toNat * b.cols.toNat := wordCount_le a.rows b.cols
    _ ≤ (a.rows.toNat * a.cols.toNat) * (b.rows.toNat * b.cols.toNat) :=
        Nat.mul_le_mul (Nat.le_mul_of_pos_right _ hpos) (Nat.le_mul_of_pos_left _ (h ▸ hpos))
    _ = a.values.size * b.values.size := by rw [a.size_eq_mul, b.size_eq_mul]

/-- **What the product of dense matrices asks for.** -/
structure ProductStorage (a b : Dense) : Prop where
  /-- The words of each factor are there, as its cells are. -/
  factors : ∀ d ∈ [a, b],
    (BitMatrix.ofDense d).words.size = wordCount d.rows d.cols ∧ wordCount d.rows d.cols ≤ d.values.size
  /-- The number of words is no machine word. -/
  size : (∃ rows rowWords, overflow? a.rows b.cols = some (.size rows rowWords)) ↔ 2 ^ 64 - 1 < wordCount a.rows b.cols
  /-- All words are there when nothing stops the program. -/
  had : overflow? a.rows b.cols = none → ∃ c, tryProductMetadata a b = .ok (.ok c.metadata) ∧
    BitMatrix.IsProduct (.ofDense a) (.ofDense b) c ∧ c.words.size = c.rows.toNat * c.rowWords.toNat ∧ c.words.size < 2 ^ 60
  /-- What is asked for is bounded by the cells of the factors, unless they have none. -/
  bounded : a.cols ≠ 0 → wordCount a.rows b.cols ≤ a.values.size * b.values.size

theorem productStorage (h : a.cols = b.rows) : a.ProductStorage b where
  factors d _ := ⟨BitMatrix.size_ofDense d, d.wordCount_le_size⟩
  size := by
    refine ⟨fun ⟨rows, rowWords, hsize⟩ => ?_, fun hlt => ⟨a.rows, UInt64.ofNat (BitMatrix.wordsPerRow b.cols), ?_⟩⟩
    · have := (BitMatrix.overflow?_eq_size_iff.1 hsize).1
      omega
    · exact BitMatrix.overflow?_eq_size_iff.2 ⟨by omega, rfl, rfl⟩
  had hnone := by
    obtain ⟨c, hc, hprod⟩ := BitMatrix.productMetadata_of_eq h
    have hsize : c.words.size = c.rows.toNat * c.rowWords.toNat := by
      rw [hprod.size, hprod.rowWords]
      rfl
    refine ⟨c, ?_, hprod, hsize, ?_⟩
    · have hnot : a.productOverflow? b = none := by rw [productOverflow?, BitMatrix.productOverflow?, if_pos h, hnone]
      exact unlessStopped_eq_ok_iff.2 ⟨hnot, hc⟩
    · rw [hprod.size, hprod.rows, hprod.cols]
      exact BitMatrix.overflow?_eq_none_iff.1 hnone
  bounded := wordCount_product_le h

end Dense

namespace Session

/-- **A step multiplies two matrices that are written out**, which are given by the names of handles. -/
def Multiplies (s : Session) (step : Step) (x y : Dense) : Prop :=
  ∃ name a b r q n m, step = .apply name (.matmul a b) ∧ s.matrixNode "a" a = .ok r ∧ s.matrixNode "b" b = .ok q ∧
    s.workspace.node? r = some n ∧ n.dense? = some x ∧ s.workspace.node? q = some m ∧ m.dense? = some y

/-- Why single steps, one after another, stop the program, if they do. -/
def firstOverflow? (s : Session) : List Step → Option Overflow
  | [] => none
  | step :: steps => (s.overflow? step).or ((s.next step).firstOverflow? steps)

variable {s : Session} {step : Step} {steps before after : List Step} {e : Overflow}

theorem firstOverflow?_append (s : Session) (before after : List Step) : s.firstOverflow? (before ++ after) =
    (s.firstOverflow? before).or ((before.foldl next s).firstOverflow? after) := by
  induction before generalizing s with
  | nil => rfl
  | cons step before ih => rw [List.cons_append, firstOverflow?, firstOverflow?, ih, List.foldl_cons, Option.or_assoc]

/-- **Steps stop the program at one of them**, which no earlier one does. -/
theorem firstOverflow?_eq_some_iff : s.firstOverflow? steps = some e ↔
    ∃ before step after, steps = before ++ step :: after ∧ s.firstOverflow? before = none ∧
      (before.foldl next s).overflow? step = some e := by
  constructor
  · intro h
    induction steps generalizing s with
    | nil => cases h
    | cons step steps ih =>
      rw [firstOverflow?, Option.or_eq_some_iff] at h
      rcases h with h | ⟨hstep, h⟩
      · exact ⟨[], step, steps, rfl, rfl, h⟩
      · obtain ⟨before, last, after, rfl, hbefore, hlast⟩ := ih h
        exact ⟨step :: before, last, after, rfl, by rw [firstOverflow?, hstep, hbefore, Option.or_none], hlast⟩
  · rintro ⟨before, step, after, rfl, hbefore, hstep⟩
    rw [firstOverflow?_append, hbefore, firstOverflow?, hstep, Option.none_or, Option.some_or]

/-- **Only a product of two matrices that are written out stops the program.** -/
theorem overflow?_eq_some_iff : s.overflow? step = some e ↔ ∃ x y, s.Multiplies step x y ∧ x.cols = y.rows ∧
    BitMatrix.overflow? x.rows y.cols = some e := by
  constructor
  · intro h
    unfold overflow? at h
    split at h
    · rename_i name application
      split at h
      · rename_i placed hplaced
        cases application with
        | matmul a b =>
          obtain ⟨r, hr, hplaced⟩ := bind_ok hplaced
          obtain ⟨q, hq, hplaced⟩ := bind_ok hplaced
          cases hplaced
          obtain ⟨n, hn, h⟩ := Option.bind_eq_some_iff.1 h
          obtain ⟨x, hx, h⟩ := Option.bind_eq_some_iff.1 h
          obtain ⟨m, hm, h⟩ := Option.bind_eq_some_iff.1 h
          obtain ⟨y, hy, h⟩ := Option.bind_eq_some_iff.1 h
          unfold Dense.productOverflow? BitMatrix.productOverflow? at h
          split at h
          · rename_i hinner
            exact ⟨x, y, ⟨name, a, b, r, q, n, m, rfl, hr, hq, hn, hx, hm, hy⟩, hinner, h⟩
          · cases h
        | mul a b | add a b | cbind a b | rbind a b | auc a b =>
          obtain ⟨r, -, hplaced⟩ := bind_ok hplaced
          obtain ⟨q, -, hplaced⟩ := bind_ok hplaced
          cases hplaced
          cases h
        | transpose a | diag a | eqZero a | neqZero a | reshape a _ _ | sum a =>
          obtain ⟨r, -, hplaced⟩ := bind_ok hplaced
          cases hplaced
          cases h
      · cases h
    · cases h
  · rintro ⟨x, y, ⟨name, a, b, r, q, n, m, rfl, hr, hq, hn, hx, hm, hy⟩, hinner, h⟩
    have hplaced : (Application.matmul a b).mapM s.matrixNode = .ok (.matmul r q) := by
      rw [Application.mapM, hr, hq]
      rfl
    have hstop : (Application.matmul r q).overflow? s.workspace.graph = some e := by
      change (s.workspace.node? r).bind _ = _
      rw [hn, Option.bind_some, hx]
      change (s.workspace.node? q).bind _ = _
      rw [hm, Option.bind_some, hy]
      exact (if_pos hinner).trans h
    simp only [overflow?, hplaced, hstop]

mutual

/-- **A step is attempted**: it is run, unless one of its single steps stops the program. -/
theorem attempt_eq (step : Step) (s : Session) :
    s.attempt step = unlessStopped (s.firstOverflow? (flat step)) fun _ => s.run step := by
  cases step with
  | rounds n steps =>
    have hround := attemptAll_eq steps
    have hall : ∀ n : Nat, n.repeat (fun r => r.bind fun r => attemptAll r.2 steps) (.ok (([] : List Answer), s)) =
        unlessStopped (s.firstOverflow? (List.replicate n (flatAll steps)).flatten) fun _ =>
          n.repeat (fun r => Session.runAll r.2 steps) (([] : List Answer), s) := by
      intro n
      induction n with
      | zero => rfl
      | succ n ih =>
        have hsnd : (n.repeat (fun r => Session.runAll r.2 steps) (([] : List Answer), s)).2 =
            (List.replicate n (flatAll steps)).flatten.foldl next s := run_snd (.rounds n steps) s
        rw [Nat.repeat, ih, List.replicate_succ', List.flatten_append, List.flatten_singleton, firstOverflow?_append,
          ← hsnd]
        cases s.firstOverflow? (List.replicate n (flatAll steps)).flatten with
        | some e => rfl
        | none => exact hround _
    rw [attempt, hall, flat]
    cases s.firstOverflow? (List.replicate n (flatAll steps)).flatten <;> rfl
  | _ =>
    rw [attempt, flat, firstOverflow?, firstOverflow?, Option.or_none]
    · rfl
    all_goals rintro _ _ ⟨⟩

theorem attemptAll_eq (steps : List Step) (s : Session) :
    s.attemptAll steps = unlessStopped (s.firstOverflow? (flatAll steps)) fun _ => s.runAll steps := by
  cases steps with
  | nil => rfl
  | cons step steps =>
    rw [attemptAll, attempt_eq step, flatAll, firstOverflow?_append, ← run_snd]
    cases s.firstOverflow? (flat step) with
    | some e => rfl
    | none =>
      change (attemptAll (s.run step).2 steps >>= _) = _
      rw [attemptAll_eq steps, Option.none_or]
      cases (s.run step).2.firstOverflow? (flatAll steps) <;> rfl

end

/-- **A run is stopped exactly by a product that asks for too many words.**  The first such step of a run stops it, and
a run without one is as `runAll` has it.  The words of the factors are there; those of the product are too many for a
machine word only if the rows of the one and the words of a row of the other are.  "Exactly" is meant for sizes that are
checked for overflow (`BitMatrix.overflow?`), and leaves the counts of products aside, which wrap. -/
theorem attemptAll_stops_at_products (s : Session) (steps : List Step) :
    (∀ e, s.attemptAll steps = .error e ↔ ∃ before step after x y, flatAll steps = before ++ step :: after ∧
      s.firstOverflow? before = none ∧ (before.foldl next s).Multiplies step x y ∧ x.cols = y.rows ∧
      BitMatrix.overflow? x.rows y.cols = some e) ∧
    (∀ r, s.attemptAll steps = .ok r → r = s.runAll steps) ∧
    ∀ x y : Dense, x.cols = y.rows → x.ProductStorage y := by
  rw [attemptAll_eq]
  refine ⟨fun e => ?_, fun r hr => (unlessStopped_eq_ok_iff.1 hr).2.symm, fun x y => Dense.productStorage⟩
  rw [unlessStopped_eq_error_iff, firstOverflow?_eq_some_iff]
  constructor
  · rintro ⟨before, step, after, hsteps, hbefore, hstep⟩
    obtain ⟨x, y, hmul, hinner, he⟩ := overflow?_eq_some_iff.1 hstep
    exact ⟨before, step, after, x, y, hsteps, hbefore, hmul, hinner, he⟩
  · rintro ⟨before, step, after, x, y, hsteps, hbefore, hmul, hinner, he⟩
    exact ⟨before, step, after, hsteps, hbefore, overflow?_eq_some_iff.2 ⟨x, y, hmul, hinner, he⟩⟩

/-- A matrix without columns, of as many rows as can be. -/
def tall : Dense := ⟨18446744073709551615, 0, #[], by decide, by decide⟩

/-- A matrix without rows, of as many columns as can be. -/
def wide : Dense := ⟨0, 18446744073709551615, #[], by decide, by decide⟩

def overfilling : List Step :=
  [.context "c" none {}, .source "a" "c" (.dense tall), .source "b" "c" (.dense wide), .apply "s" (.matmul "a" "b")]

/-- Two matrices without a cell stop the program. -/
theorem attemptAll_stops_at_products_overfilling :
    tall.cols = wide.rows ∧ attemptAll {} overfilling = .error (.size 18446744073709551615 288230376151711744) := by
  refine ⟨rfl, ((attemptAll_stops_at_products {} overfilling).1 _).2
    ⟨overfilling.take 3, _, [], tall, wide, rfl, by decide, ⟨_, _, _, 0, 1, _, _, rfl, rfl, rfl, rfl, rfl, rfl, rfl⟩, rfl,
      ?_⟩⟩
  decide

/-- **The product of matrices without cells asks for more words than a machine word can number.** -/
theorem words_of_empty_product : tall.cols = wide.rows ∧ tall.values = #[] ∧ wide.values = #[] ∧
    2 ^ 64 - 1 < BitMatrix.wordCount tall.rows wide.cols := by
  decide

end Session
end MatrixPlan
