import Mathlib.Data.Nat.Digits.Defs
import TypedSexp.Proofs.Expr.Printing
import TypedSexp.Proofs.Run.Arithmetic
import TypedSexp.Proofs.Run.Fuel

namespace TypedSexp

open Store (programScope)

namespace Numeral

theorem isDigit_of_readFrom {acc : Nat} {t : Text} {n : UInt64} (h : readFrom acc t = .ok n) :
    ∀ c ∈ t, Byte.isDigit c = true := by
  induction t generalizing acc with
  | nil => exact fun c hc => absurd hc List.not_mem_nil
  | cons c rest ih =>
      rw [readFrom] at h
      split at h
      case isTrue hc =>
        dsimp only at h
        split at h
        · exact List.forall_mem_cons.mpr ⟨hc, ih h⟩
        · cases h
      case isFalse => cases h

theorem isNumeral_of_read {t : Text} {n : UInt64} (h : read t = .ok n) : isNumeral t = true := by
  cases t with
  | nil => cases h
  | cons c rest =>
      have hdigits : ∀ b ∈ c :: rest, Byte.isDigit b = true := isDigit_of_readFrom h
      simpa [isNumeral] using hdigits

theorem value_eq_ofDigits (t : Text) :
    value t = Nat.ofDigits 10 (t.reverse.map Byte.digitValue) := by
  rw [Nat.ofDigits_eq_foldr, List.foldr_map, List.foldr_reverse, value, valueFrom]
  congr 1
  funext acc c
  rw [Nat.cast_id, Nat.add_comm, Nat.mul_comm]

theorem exists_read_eq_ok_iff (t : Text) (n : Nat) :
    (∃ w : UInt64, read t = .ok w ∧ w.toNat = n) ↔
      isNumeral t = true ∧ value t = n ∧ n < limit := by
  constructor
  · rintro ⟨w, hread, rfl⟩
    have hnumeral := isNumeral_of_read hread
    exact ⟨hnumeral, (read_eq_ok_iff hnumeral).mp hread, w.toNat_lt_size⟩
  · rintro ⟨hnumeral, rfl, hlt⟩
    have hword : (UInt64.ofNat (value t)).toNat = value t := UInt64.toNat_ofNat_of_lt' hlt
    exact ⟨_, (read_eq_ok_iff hnumeral).mpr hword.symm, hword⟩

end Numeral

theorem Expr.read_write (n : UInt64) :
    ∃ place, Expr.read (Numeral.write n) = .ok (.num place n) := by
  have hwellFormed : (Expr.num Range.none n).WellFormed := .num
  obtain ⟨e, hread, hcontent⟩ := Expr.read_toText_of_wellFormed hwellFormed
  cases e with
  | num place m =>
      simp only [Expr.content, Expr.num.injEq, true_and] at hcontent
      subst hcontent
      exact ⟨place, hread⟩
  | _ => simp [Expr.content] at hcontent

theorem Numeral.read_exactly :
    (∀ (t : Text) (n : Nat), (∃ w : UInt64, read t = .ok w ∧ w.toNat = n) ↔
      isNumeral t = true ∧ Nat.ofDigits 10 (t.reverse.map Byte.digitValue) = n ∧ n < limit) ∧
    ∀ (n : UInt64) (range : Range),
      (Expr.num range n).toText = write n ∧ (Value.num n).toText = write n ∧
      read (write n) = .ok n ∧ ∃ place, Expr.read (write n) = .ok (.num place n) := by
  refine ⟨fun t n => ?_, fun n range => ⟨rfl, rfl, read_write n, Expr.read_write n⟩⟩
  rw [← value_eq_ofDigits]
  exact exists_read_eq_ok_iff t n

inductive Operator where
  | add
  | sub
  | mul

namespace Operator

def primitive : Operator → Primitive
  | .add => .add
  | .sub => .sub
  | .mul => .mul

def compute : Operator → Nat → Nat → Nat
  | .add, x, y => x + y
  | .sub, x, y => x - y
  | .mul, x, y => x * y

def refusal (o : Operator) (x y : Nat) : Diagnostic :=
  ⟨Range.none, .primitiveMisuse o.primitive.name (.overflow (.ofNat x) (.ofNat y))⟩

theorem apply_of_fits (o : Operator) {x y : Nat} (hx : x < Numeral.limit)
    (hy : y < Numeral.limit) (h : o.compute x y < Numeral.limit) :
    o.primitive.apply [.num (.ofNat x), .num (.ofNat y)] =
      .ok (.num (.ofNat (o.compute x y))) := by
  have hx' := UInt64.toNat_ofNat_of_lt' hx
  have hy' := UInt64.toNat_ofNat_of_lt' hy
  cases o with
  | add =>
      simp only [primitive, Primitive.apply, Primitive.onNumbers, Primitive.bounded_sum, hx', hy']
      exact if_pos h
  | sub =>
      simp only [primitive, Primitive.apply, Primitive.onNumbers, Word.truncatedSub_eq, hx', hy',
        compute]
  | mul =>
      simp only [primitive, Primitive.apply, Primitive.onNumbers, Primitive.bounded_product, hx',
        hy']
      exact if_pos h

theorem apply_of_not_fits (o : Operator) {x y : Nat} (hx : x < Numeral.limit)
    (hy : y < Numeral.limit) (h : Numeral.limit ≤ o.compute x y) :
    o.primitive.apply [.num (.ofNat x), .num (.ofNat y)] = .error (o.refusal x y) := by
  have hx' := UInt64.toNat_ofNat_of_lt' hx
  have hy' := UInt64.toNat_ofNat_of_lt' hy
  cases o with
  | sub =>
      simp only [compute] at h
      omega
  | add =>
      simp only [primitive, Primitive.apply, Primitive.onNumbers, Primitive.bounded_sum, hx', hy']
      exact if_neg (Nat.not_lt.mpr h)
  | mul =>
      simp only [primitive, Primitive.apply, Primitive.onNumbers, Primitive.bounded_product, hx',
        hy']
      exact if_neg (Nat.not_lt.mpr h)

theorem detail_refusal (o : Operator) {x y : Nat} (hx : x < Numeral.limit)
    (hy : y < Numeral.limit) :
    (o.refusal x y).cause.detail =
      utf8 "primitive " ++ o.primitive.name.inQuotes ++ utf8 ": result of " ++ Text.ofNat x ++
        utf8 " " ++ o.primitive.name ++ utf8 " " ++ Text.ofNat y ++
        utf8 " does not fit in a Nat" := by
  have hx' := UInt64.toNat_ofNat_of_lt' hx
  have hy' := UInt64.toNat_ofNat_of_lt' hy
  have hseparator : utf8 ": result of " = utf8 ": " ++ utf8 "result of " := rfl
  simp only [refusal, Cause.detail, Misuse.message, hx', hy', hseparator, List.append_assoc]

end Operator

inductive Arithmetic where
  | num (range : Range) (n : UInt64)
  | op (range place : Range) (operator : Operator) (left right : Arithmetic)

namespace Arithmetic

def toExpr : Arithmetic → Expr
  | .num range n => .num range n
  | .op range place o left right =>
      .apply range (.var place o.primitive.name) [left.toExpr, right.toExpr]

def value : Arithmetic → Nat
  | .num _ n => n.toNat
  | .op _ _ o left right => o.compute left.value right.value

/-- All subexpressions, in the order in which their evaluation ends. -/
def parts : Arithmetic → List Arithmetic
  | .num range n => [.num range n]
  | .op range place o left right => left.parts ++ right.parts ++ [.op range place o left right]

def Fits (a : Arithmetic) : Prop := a.value < Numeral.limit

def FirstOverflow (a : Arithmetic) (o : Operator) (left right : Arithmetic) : Prop :=
  ∃ range place before after, a.parts = before ++ .op range place o left right :: after ∧
    (∀ part ∈ before, part.Fits) ∧ Numeral.limit ≤ o.compute left.value right.value

theorem mem_parts_self (a : Arithmetic) : a ∈ a.parts := by
  cases a <;> simp [parts]

def depth : Arithmetic → Nat
  | .num _ _ => 1
  | .op _ _ _ left right => max left.depth right.depth + 1

theorem depth_pos (a : Arithmetic) : 1 ≤ a.depth := by
  cases a <;> simp [depth]

inductive Settles (a : Arithmetic) : Except Halt Value → Prop
  | exact : (∀ part ∈ a.parts, part.Fits) → Settles a (.ok (.num (.ofNat a.value)))
  | refused {o : Operator} {left right : Arithmetic} : a.FirstOverflow o left right →
      left.Fits → right.Fits → Settles a (.error (.fault (o.refusal left.value right.value)))

theorem FirstOverflow.op_left {range place : Range} {o p : Operator} {a b left right : Arithmetic}
    (h : a.FirstOverflow p left right) : (op range place o a b).FirstOverflow p left right := by
  obtain ⟨r, q, before, after, hparts, hbefore, hlarge⟩ := h
  refine ⟨r, q, before, after ++ b.parts ++ [op range place o a b], ?_, hbefore, hlarge⟩
  simp only [parts, hparts, List.append_assoc, List.cons_append]

theorem FirstOverflow.op_right {range place : Range} {o p : Operator} {a b left right : Arithmetic}
    (ha : ∀ part ∈ a.parts, part.Fits) (h : b.FirstOverflow p left right) :
    (op range place o a b).FirstOverflow p left right := by
  obtain ⟨r, q, before, after, hparts, hbefore, hlarge⟩ := h
  refine ⟨r, q, a.parts ++ before, after ++ [op range place o a b], ?_, ?_, hlarge⟩
  · simp only [parts, hparts, List.append_assoc, List.cons_append]
  · exact List.forall_mem_append.mpr ⟨ha, hbefore⟩

theorem eval_operator {s : Store} {scope fuel : Nat} {place range : Range} {p : Primitive}
    (hp : s.lookup? scope p.name = some (.prim p)) (hfuel : 1 ≤ fuel) (a b : Expr) :
    ((Expr.apply range (.var place p.name) [a, b]).eval (fuel + 1) scope).startingFrom s =
      (do
        let v ← a.eval fuel scope
        let w ← b.eval fuel scope
        Run.ofExcept (p.apply [v, w]) : Run Value).startingFrom s := by
  obtain ⟨fuel, rfl⟩ := Nat.exists_eq_add_of_le' hfuel
  have hhead : ((Expr.var place p.name).eval (fuel + 1) scope).startingFrom s =
      (.ok (.prim p), s) := by
    have hget : (get : Run Store).startingFrom s = (.ok s, s) := rfl
    rw [Expr.eval, Run.startingFrom_bind, hget]
    simp only [hp]
    rfl
  rw [Expr.eval, Run.startingFrom_bind, hhead]
  simp only [List.mapM_cons, List.mapM_nil, bind_assoc, pure_bind]

theorem apply_settles {o : Operator} {left right : Arithmetic}
    (hleft : ∀ part ∈ left.parts, part.Fits) (hright : ∀ part ∈ right.parts, part.Fits)
    (range place : Range) (s : Store) :
    ∃ r, (Run.ofExcept (o.primitive.apply [.num (.ofNat left.value),
        .num (.ofNat right.value)])).startingFrom s = (r, s) ∧
      (op range place o left right).Settles r := by
  have hx : left.Fits := hleft left left.mem_parts_self
  have hy : right.Fits := hright right right.mem_parts_self
  have hbefore := List.forall_mem_append.mpr ⟨hleft, hright⟩
  rcases Nat.lt_or_ge (o.compute left.value right.value) Numeral.limit with hlt | hge
  · rw [o.apply_of_fits hx hy hlt]
    have hself : ∀ part ∈ [op range place o left right], part.Fits :=
      List.forall_mem_singleton.mpr hlt
    exact ⟨_, rfl, .exact (List.forall_mem_append.mpr ⟨hbefore, hself⟩)⟩
  · rw [o.apply_of_not_fits hx hy hge]
    exact ⟨_, rfl, .refused ⟨range, place, _, [], rfl, hbefore, hge⟩ hx hy⟩

theorem eval_settles {s : Store} {scope : Nat}
    (hs : ∀ o : Operator, s.lookup? scope o.primitive.name = some (.prim o.primitive))
    (a : Arithmetic) {fuel : Nat} (hfuel : a.depth ≤ fuel) :
    ∃ r, (a.toExpr.eval fuel scope).startingFrom s = (r, s) ∧ a.Settles r := by
  induction a generalizing fuel with
  | num range n =>
      obtain ⟨fuel, rfl⟩ := Nat.exists_eq_add_of_le' hfuel
      have hfits : ∀ part ∈ (num range n).parts, part.Fits := by
        simpa [parts, Fits, value] using n.toNat_lt_size
      have hvalue : UInt64.ofNat (num range n).value = n := UInt64.ofNat_toNat
      exact ⟨.ok (.num n), rfl, by simpa only [hvalue] using Settles.exact hfits⟩
  | op range place o left right ihleft ihright =>
      have hpos := left.depth_pos
      obtain ⟨fuel, rfl⟩ := Nat.exists_eq_add_of_le' (Nat.le_of_add_left_le hfuel)
      simp only [depth, Nat.add_le_add_iff_right, Nat.max_le] at hfuel
      obtain ⟨hle, hle'⟩ := hfuel
      obtain ⟨v, hv, hleft⟩ := ihleft hle
      obtain ⟨w, hw, hright⟩ := ihright hle'
      rw [toExpr, eval_operator (hs o) (Nat.le_trans hpos hle), Run.startingFrom_bind, hv]
      cases hleft with
      | refused hfirst hx hy => exact ⟨_, rfl, .refused hfirst.op_left hx hy⟩
      | exact hfits =>
          dsimp only
          rw [Run.startingFrom_bind, hw]
          cases hright with
          | refused hfirst hx hy => exact ⟨_, rfl, .refused (hfirst.op_right hfits) hx hy⟩
          | exact hfits' => exact apply_settles hfits hfits' range place s

theorem FirstOverflow.not_fits {a : Arithmetic} {o : Operator} {left right : Arithmetic}
    (h : a.FirstOverflow o left right) : ¬∀ part ∈ a.parts, part.Fits := by
  obtain ⟨range, place, before, after, hparts, -, hlarge⟩ := h
  intro hfits
  have hpart : (op range place o left right).Fits := hfits _ (by simp [hparts])
  exact absurd hpart (Nat.not_lt.mpr hlarge)

theorem Settles.num_iff {a : Arithmetic} {r : Except Halt Value} (h : a.Settles r) (n : UInt64) :
    r = .ok (.num n) ↔ (∀ part ∈ a.parts, part.Fits) ∧ a.value = n.toNat := by
  cases h with
  | exact hfits =>
      have hword := UInt64.toNat_ofNat_of_lt' (hfits a a.mem_parts_self)
      rw [Except.ok.injEq, Value.num.injEq, ← UInt64.toNat_inj, hword]
      exact (and_iff_right hfits).symm
  | refused hfirst _ _ => simp [hfirst.not_fits]

theorem Settles.ne_outOfFuel {a : Arithmetic} {r : Except Halt Value} (h : a.Settles r) :
    r ≠ .error .outOfFuel := by
  cases h <;> simp

theorem lookup?_initial (o : Operator) :
    Store.initial.lookup? programScope o.primitive.name = some (.prim o.primitive) := by
  cases o <;> rfl

theorem arithmetic_is_exact_or_refused (a : Arithmetic) :
    (∀ n : UInt64,
      (∃ fuel, ((a.toExpr.eval fuel programScope).startingFrom Store.initial).1 = .ok (.num n)) ↔
        (∀ part ∈ a.parts, part.Fits) ∧ a.value = n.toNat) ∧
    ((∀ part ∈ a.parts, part.Fits) ∨
      ∃ o left right, a.FirstOverflow o left right ∧ left.Fits ∧ right.Fits ∧
        (o.refusal left.value right.value).cause.detail =
          utf8 "primitive " ++ o.primitive.name.inQuotes ++ utf8 ": result of " ++
            Text.ofNat left.value ++ utf8 " " ++ o.primitive.name ++ utf8 " " ++
            Text.ofNat right.value ++ utf8 " does not fit in a Nat" ∧
        ∃ fuel, ∀ more ≥ fuel,
          ((a.toExpr.eval more programScope).startingFrom Store.initial).1 =
            .error (.fault (o.refusal left.value right.value))) := by
  obtain ⟨r, hr, hsettles⟩ := eval_settles lookup?_initial a (Nat.le_refl a.depth)
  have hmore (more : Nat) (hle : a.depth ≤ more) :
      (a.toExpr.eval more programScope).startingFrom Store.initial = (r, Store.initial) :=
    (a.toExpr.eval_below hle programScope Store.initial).eq_of_ne hr hsettles.ne_outOfFuel
  refine ⟨fun n => ?_, ?_⟩
  · rw [← hsettles.num_iff]
    constructor
    · rintro ⟨fuel, hfuel⟩
      -- Enough fuel for both runs: they come to the same.
      have hlast := (a.toExpr.eval_below (Nat.le_max_left fuel a.depth) programScope
        Store.initial).eq_of_ne (Prod.ext hfuel rfl) (by simp)
      rw [hmore _ (Nat.le_max_right fuel a.depth)] at hlast
      exact congrArg Prod.fst hlast
    · rintro rfl
      exact ⟨a.depth, congrArg Prod.fst hr⟩
  · cases hsettles with
    | exact hfits => exact .inl hfits
    | @refused o left right hfirst hx hy =>
        refine .inr ⟨o, left, right, hfirst, hx, hy, o.detail_refusal hx hy, a.depth, ?_⟩
        exact fun more hle => congrArg Prod.fst (hmore more hle)

def zeroLessSquare : Arithmetic :=
  .op ⟨1, 32⟩ ⟨2, 3⟩ .sub (.num ⟨4, 5⟩ 0)
    (.op ⟨6, 31⟩ ⟨7, 8⟩ .mul (.num ⟨9, 19⟩ 4294967296) (.num ⟨20, 30⟩ 4294967296))

theorem arithmetic_is_exact_or_refused_below_difference :
    Expr.read (utf8 "(- 0 (* 4294967296 4294967296))") = .ok zeroLessSquare.toExpr ∧
      zeroLessSquare.value = 0 ∧
      ¬(∃ fuel, ((zeroLessSquare.toExpr.eval fuel programScope).startingFrom
        Store.initial).1 = .ok (.num 0)) ∧
      ∃ fuel, ∀ more ≥ fuel,
        ((zeroLessSquare.toExpr.eval more programScope).startingFrom Store.initial).1 =
          .error (.fault (Operator.mul.refusal 4294967296 4294967296)) := by
  obtain ⟨hexact, hrefused⟩ := arithmetic_is_exact_or_refused zeroLessSquare
  have hsquare : ¬∀ part ∈ zeroLessSquare.parts, part.Fits := by
    intro hfits
    have hfits := hfits (.op ⟨6, 31⟩ ⟨7, 8⟩ .mul (.num ⟨9, 19⟩ 4294967296)
      (.num ⟨20, 30⟩ 4294967296)) (by simp [zeroLessSquare, parts])
    exact absurd hfits (Nat.not_lt.mpr (Nat.le_of_eq rfl))
  refine ⟨rfl, rfl, fun hzero => hsquare ((hexact 0).mp hzero).1, ?_⟩
  obtain ⟨o, left, right, -, -, -, -, fuel, hfails⟩ := hrefused.resolve_left hsquare
  -- The run with little fuel already names the product.
  have hproduct : ((zeroLessSquare.toExpr.eval 3 programScope).startingFrom Store.initial).1 =
      .error (.fault (Operator.mul.refusal 4294967296 4294967296)) := rfl
  have hmore := (zeroLessSquare.toExpr.eval_below (Nat.le_max_left 3 fuel) programScope
    Store.initial).eq_of_ne (Prod.ext hproduct rfl) (by simp)
  have hsame := (hfails (max 3 fuel) (Nat.le_max_right 3 fuel)).symm.trans (congrArg Prod.fst hmore)
  exact ⟨fuel, fun more hle => (hfails more hle).trans hsame⟩

end Arithmetic

end TypedSexp
