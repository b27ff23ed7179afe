import ModelicaFold.Proofs.Typing.Rules

/-!
# Typed reductions

Every binding tuple takes one item of each sequence, so the body is evaluated for values of the types
that the iterators range over. What is gathered is nested as deep as there are iterators to combine;
what is folded keeps its type, since a fold by name is asked for values without placeholders only.
-/

namespace ModelicaFold

open EvalM (safe_pure safe_fail safe_ofOutcome)
open Value (Fits fits_arrayOf fits_listOf)

/-! ## Binding tuples -/

/-- A combination takes one item of each sequence. -/
theorem forall₂_of_mem_combinations {α : Type} {sequences : List (List α)} {tuple : List α}
    (h : tuple ∈ combinations sequences) :
    List.Forall₂ (fun items a => a ∈ items) sequences tuple := by
  induction sequences generalizing tuple with
  | nil =>
    rw [combinations, List.mem_singleton] at h
    exact h ▸ .nil
  | cons items more ih =>
    rw [combinations_cons, List.mem_flatMap] at h
    obtain ⟨rest, hrest, h⟩ := h
    obtain ⟨a, ha, rfl⟩ := List.mem_map.mp h
    exact .cons ha (ih hrest)

/-- The heads of sequences that are not empty are items of them. -/
theorem forall₂_heads {α : Type} {sequences : List (List α)} (h : ∀ items ∈ sequences, items ≠ []) :
    List.Forall₂ (fun items a => a ∈ items) sequences (sequences.filterMap List.head?) := by
  induction sequences with
  | nil => exact .nil
  | cons items more ih =>
    obtain ⟨hitems, hmore⟩ := List.forall_mem_cons.mp h
    obtain ⟨a, rest, rfl⟩ := List.exists_cons_of_ne_nil hitems
    exact .cons List.mem_cons_self (ih hmore)

/-- A tuple of sequences run through in step takes one item of each. -/
theorem forall₂_of_mem_lockstep {α : Type} {n : Nat} {sequences : List (List α)} {tuple : List α}
    (hlength : ∀ items ∈ sequences, items.length = n) (h : tuple ∈ lockstep n sequences) :
    List.Forall₂ (fun items a => a ∈ items) sequences tuple := by
  induction n generalizing sequences with
  | zero => cases h
  | succ n ih =>
    rcases List.mem_cons.mp h with rfl | h
    · refine forall₂_heads fun items hitems hnil => ?_
      have := hlength items hitems
      simp [hnil] at this
    · have htails : ∀ items ∈ sequences.map List.tail, items.length = n := by
        intro items hitems
        obtain ⟨longer, hlonger, rfl⟩ := List.mem_map.mp hitems
        rw [List.length_tail, hlength longer hlonger, Nat.add_sub_cancel]
      have hrest := List.forall₂_map_left_iff.mp (ih htails h)
      exact hrest.imp fun items a ha => List.mem_of_mem_tail ha

/-- Every binding tuple takes one item of each sequence. -/
theorem safe_bindingTuples {α : Type} (kind : IteratorKind) (sequences : List (List α)) :
    (bindingTuples kind sequences).Safe fun tuples =>
      ∀ tuple ∈ tuples, List.Forall₂ (fun items a => a ∈ items) sequences tuple := by
  cases kind with
  | combine =>
    simp only [bindingTuples]
    split
    · exact .ite (fun _ => .ok fun _ => forall₂_of_mem_combinations)
        fun _ => Outcome.safe_fail rfl
    · exact Outcome.safe_fail rfl
  | thread =>
    simp only [bindingTuples]
    refine .ite (fun _ => Outcome.safe_fail rfl) fun hsame => .ok fun tuple htuple => ?_
    exact forall₂_of_mem_lockstep (by simpa using hsame) htuple

/-- The items of a tuple have the types that the sequences have. -/
theorem fits_tuple {c : Bool} {elements : List ValueType} {sequences : List (List Value)}
    {tuple : List Value}
    (hsequences : List.Forall₂ (fun t items => ∀ v ∈ items, v.Fits c t) elements sequences)
    (htuple : List.Forall₂ (fun items a => a ∈ items) sequences tuple) :
    List.Forall₂ (Fits c) elements tuple := by
  induction hsequences generalizing tuple with
  | nil =>
    cases htuple
    exact .nil
  | cons hitems _ ih =>
    cases htuple with
    | cons hmem hmore => exact .cons (hitems _ hmem) (ih hmore)

/-! ## Gathered values -/

namespace Gathering

variable {d : Bool} {t : ValueType}

/-- Values of a type are gathered one level up to the wrapped type. -/
theorem fits_level (g : Gathering) {vs : List Value} (h : ∀ v ∈ vs, v.Fits d t) :
    (g.level vs).Fits d (g.wrap t) := by
  cases g with
  | array => exact fits_arrayOf h
  | _ => exact fits_listOf h

/-- Values of one type are nested as deep as there are sizes. -/
theorem fits_nest (g : Gathering) {flat : List Value} (h : ∀ v ∈ flat, v.Fits d t)
    (shape : List Nat) :
    (Value.nest g.level flat shape).Fits d (g.wrap^[max 1 shape.length] t) := by
  induction shape generalizing flat with
  | nil => exact g.fits_level h
  | cons n inner ih =>
    cases inner with
    | nil => exact g.fits_level h
    | cons m inner =>
      have hdepth : max 1 (n :: m :: inner).length = max 1 (m :: inner).length + 1 := by
        simp only [List.length_cons]
        omega
      rw [hdepth, Function.iterate_succ_apply', Value.nest]
      by_cases hzero : sizeProduct (m :: inner) = 0 ∨ n = 0
      · simp only [hzero, if_true]
        cases g with
        | array => exact .array fun v hv => absurd hv List.not_mem_nil
        | _ => exact .list fun v hv => absurd hv List.not_mem_nil
      · simp only [hzero, if_false]
        refine g.fits_level fun v hv => ?_
        obtain ⟨piece, hpiece, rfl⟩ := List.mem_map.mp hv
        exact ih fun v hv => h v (Value.mem_of_mem_chunks hpiece v hv)

/-- Values of a type are gathered in a shape to the type wrapped that often. -/
theorem fits_gather {g : Gathering} (hg : g ≠ .fold) {values : List Value}
    (h : ∀ v ∈ values, v.Fits d t) (shape : List Nat) :
    (g.gather values shape).Fits d (g.typeOf shape.length t) := by
  cases g with
  | array =>
    refine fits_nest .array (fun v hv => ?_) shape
    obtain ⟨w, hw, rfl⟩ := List.mem_map.mp hv
    exact (h w hw).unboxed
  | list => exact fits_nest .list h shape
  | reversedList => exact fits_nest .reversedList (fun v hv => h v (List.mem_reverse.mp hv)) shape
  | fold => exact absurd rfl hg

end Gathering

/-! ## Folds by name -/

/-- A number kind is accepted by every arithmetic operation. -/
theorem Arith.accepts_of_isNumber {kind : ScalarKind} (h : kind.IsNumber) (op : Arith) :
    op.Accepts kind := by
  cases kind with
  | string => cases h
  | _ => cases op <;> exact h

namespace Value

variable {kind : ScalarKind}

/-- A scalar of a number kind is a number. -/
theorem isNone_number? (hkind : kind.IsNumber) {v : Value} (hv : v.IsScalar kind) :
    v.number?.isNone = false := by
  cases kind with
  | integer =>
    obtain ⟨n, rfl⟩ := hv
    rfl
  | real =>
    obtain ⟨x, rfl⟩ := hv
    rfl
  | _ => cases hkind

/-- Adding up or multiplying values of a number kind is safe. -/
theorem safe_foldNumbers (op : Arith) (hkind : kind.IsNumber) {n : Nat} {acc next : Value}
    (hacc : acc.Fits false (.arrays n (.scalar kind)))
    (hnext : next.Fits false (.arrays n (.scalar kind))) :
    (foldNumbers op acc next).Safe (Fits false (.arrays n (.scalar kind))) := by
  have hcombine := combinesLeaves_scalarArith (Arith.accepts_of_isNumber hkind op)
  refine .ite (fun _ => safe_orShape (fun o ho => ?_) _) fun hscalars => ?_
  · exact safe_zipLeaves hcombine hacc.solid hnext.solid ho
  · cases n with
    | zero =>
      rw [if_neg (by simp [isNone_number? hkind (Fits.isScalar hacc)])]
      exact hcombine.apply hacc.solid hnext.solid
    | succ n =>
      cases hacc with
      | empty hfalse => cases hfalse
      | array _ => exact absurd rfl hscalars

/-- Scalars of one kind can be compared, unless they are Reals. -/
theorem exists_relate? (hkind : kind ≠ .real) {a b : Value} (ha : a.IsScalar kind)
    (hb : b.IsScalar kind) (op : RelationOp) : ∃ holds, relate? a op b = some holds := by
  cases kind with
  | integer => obtain ⟨a, rfl⟩ := ha; obtain ⟨b, rfl⟩ := hb; cases op <;> exact ⟨_, rfl⟩
  | boolean => obtain ⟨a, rfl⟩ := ha; obtain ⟨b, rfl⟩ := hb; cases op <;> exact ⟨_, rfl⟩
  | string => obtain ⟨a, rfl⟩ := ha; obtain ⟨b, rfl⟩ := hb; cases op <;> exact ⟨_, rfl⟩
  | enumeration => obtain ⟨_, a, rfl⟩ := ha; obtain ⟨_, b, rfl⟩ := hb; cases op <;> exact ⟨_, rfl⟩
  | real => exact absurd rfl hkind

/-- Keeping the lesser or the greater of two discrete scalars is safe. -/
theorem safe_foldExtreme (name : String) (keeps : RelationOp) (hkind : kind ≠ .real)
    {acc next : Value} (hacc : acc.Fits false (.scalar kind))
    (hnext : next.Fits false (.scalar kind)) :
    (foldExtreme name keeps acc next).Safe (Fits false (.scalar kind)) := by
  obtain ⟨keep, hkeep⟩ := exists_relate? hkind hacc.isScalar hnext.isScalar keeps
  simp only [foldExtreme, hkeep]
  cases keep with
  | true => exact .ok hacc
  | false => exact .ok hnext

/-- A step of a fold by name is safe on the types that it folds. -/
theorem safe_foldNamed {name : String} {t : ValueType} (h : FoldsByName name t) {acc next : Value}
    (hacc : acc.Fits false t) (hnext : next.Fits false t) :
    (foldNamed name acc next).Safe (Fits false t) := by
  cases h with
  | sum n hkind => exact safe_foldNumbers .add hkind hacc hnext
  | product n hkind => exact safe_foldNumbers .mul hkind hacc hnext
  | max hkind => exact safe_foldExtreme "max" .greaterEq hkind hacc hnext
  | min hkind => exact safe_foldExtreme "min" .lessEq hkind hacc hnext

end Value

/-! ## Reductions -/

/-- A name that folds is not one that gathers. -/
theorem FoldsByName.gathering {name : String} {t : ValueType} (h : FoldsByName name t) :
    Gathering.ofName name = .fold := by
  cases h <;> rfl

/-- There is a type of elements for each iterator. -/
theorem IteratorsRange.length_eq {τ : KeyTypes} {env : Env} {iterators : List Iterator} {c : Bool}
    {elements : List ValueType} (h : IteratorsRange τ env iterators c elements) :
    elements.length = iterators.length := by
  induction iterators generalizing elements with
  | nil =>
    cases h
    rfl
  | cons it more ih =>
    cases h with
    | cons _ _ _ hmore => exact congrArg (· + 1) (ih hmore)

/-- A fold gives what the body gives. -/
theorem ReductionGives.of_fold {τ : KeyTypes} {env : Env} {info : ReductionInfo} {n : Nat}
    {b d : Bool} {t t' : ValueType} (hg : Gathering.ofName info.path.last = .fold)
    (h : ReductionGives τ env info n b t d t') : t' = t ∧ (b = true → d = true) := by
  cases h with
  | gather h => exact absurd hg h
  | fold _ _ _ => exact ⟨rfl, id⟩
  | named _ _ => exact ⟨rfl, fun h => by cases h⟩

/-- What gathers gives the type of the body wrapped as often as there are ranks. -/
theorem ReductionGives.of_gather {τ : KeyTypes} {env : Env} {info : ReductionInfo} {n : Nat}
    {b d : Bool} {t t' : ValueType} (hg : Gathering.ofName info.path.last ≠ .fold)
    (h : ReductionGives τ env info n b t d t') :
    b = d ∧ t' = (Gathering.ofName info.path.last).typeOf (info.kind.rank n) t := by
  cases h with
  | gather _ => exact ⟨rfl, rfl⟩
  | fold hfold _ _ => exact absurd hfold hg
  | named _ hnamed => exact absurd hnamed.gathering hg

namespace Steps

variable {τ : KeyTypes} {start : Env} {s : Steps} (hs : s.Sound τ start) {req : Request}
  (henv : start.Extends req.env) {b c d : Bool} {t t' : ValueType}

include hs henv

/-- The values that one iterator runs through have the element type of its source. -/
theorem safe_sequence {it : Iterator} {source : ValueType}
    (hsource : HasType τ req.env it.source c source) (helement : source.element? = some t)
    (hguard : ∀ guard ∈ it.guard, ∀ v : Value, v.Fits c t →
      HasType τ (req.env.bindIterators [(it.name, it.ty, v)]) guard b (.scalar .boolean)) :
    (s.sequence req it).Safe (Context.WellTyped τ) fun items => ∀ v ∈ items, v.Fits c t := by
  refine (safe_eval hs henv hsource).bind fun v hv => ?_
  -- a placeholder for a source has no elements
  have hcandidates : (∃ scope name ty, v = .empty scope name ty)
      ∨ ∃ candidates, v.elements? = some candidates ∧ ∀ w ∈ candidates.toList, w.Fits c t := by
    cases hv with
    | empty _ => exact .inl ⟨_, _, _, rfl⟩
    | array h =>
      cases helement
      exact .inr ⟨_, rfl, h⟩
    | list h =>
      cases helement
      exact .inr ⟨_, rfl, h⟩
    | _ => cases helement
  rcases hcandidates with ⟨scope, name, ty, rfl⟩ | ⟨candidates, helements, hfits⟩
  · exact safe_fail rfl
  · simp only [helements]
    cases hit : it.guard with
    | none => exact safe_pure hfits
    | some guard =>
      have hpasses : ∀ w ∈ candidates.toList,
          (s.passes req it.name it.ty guard w).Safe (Context.WellTyped τ) fun _ => True := by
        intro w hw
        have hscope : start.Extends
            (req.within (req.env.bindIterators [(it.name, it.ty, w)])).env :=
          henv.bindValues iteratorScopeName .iteratorScope _
        have htyped := hguard guard hit w (hfits w hw)
        refine (safe_evalInner hs hscope htyped).bind fun verdict _ => ?_
        cases verdict with
        | bool b => exact safe_pure trivial
        | _ => exact safe_fail rfl
      exact (EvalM.Safe.filterM hpasses).mono fun kept hkept w hw => hfits w (hkept w hw)

/-- The values that the iterators run through have their element types. -/
theorem safe_sequences {iterators : List Iterator} {elements : List ValueType}
    (h : IteratorsRange τ req.env iterators c elements) :
    (iterators.mapM (s.sequence req)).Safe (Context.WellTyped τ)
      (List.Forall₂ (fun t items => ∀ v ∈ items, v.Fits c t) elements) := by
  induction iterators generalizing elements with
  | nil =>
    cases h
    exact safe_pure .nil
  | cons it more ih =>
    cases h with
    | cons hsource helement hguard hmore =>
      rw [List.mapM_cons]
      refine (safe_sequence hs henv hsource helement hguard).bind fun items hitems => ?_
      exact (ih hmore).bind fun others hothers => safe_pure (.cons hitems hothers)

/-- A step of the fold of a reduction is safe and keeps the type. -/
theorem safe_foldStep {info : ReductionInfo} {n : Nat}
    (hgathering : Gathering.ofName info.path.last = .fold)
    (hresult : ReductionGives τ req.env info n b t d t') {acc next : Value} (hacc : acc.Fits b t)
    (hnext : next.Fits b t) :
    (s.foldStep req info acc next).Safe (Context.WellTyped τ) (Fits b t) := by
  unfold foldStep
  cases hresult with
  | gather h => exact absurd hgathering h
  | fold _ hfold hstep =>
    simp only [hfold]
    have hscope : start.Extends (req.within (req.env.bindIterators
        [(info.valueName, info.ty, next), (info.resultName, info.ty, acc)])).env :=
      henv.bindValues iteratorScopeName .iteratorScope _
    exact safe_evalInner hs hscope (hstep acc next hacc hnext)
  | named hfold h =>
    simp only [hfold]
    exact safe_ofOutcome (Value.safe_foldNamed h hacc hnext)

/-- A reduction is safe and gives a value of its type. -/
theorem safe_reduction {info : ReductionInfo} {body default : Expr} {iterators : List Iterator}
    {elements : List ValueType} (hiterators : IteratorsRange τ req.env iterators c elements)
    (hbody : ∀ vs, List.Forall₂ (Fits c) elements vs →
      HasType τ (req.env.bindTuple iterators vs) body b t)
    (hdefault : info.default = some default) (h : HasType τ req.env default d t')
    (hresult : ReductionGives τ req.env info iterators.length b t d t') :
    (s.reduction req info body iterators).Safe (Context.WellTyped τ) (Fits d t') := by
  refine (safe_sequences hs henv hiterators).bind fun sequences hsequences => ?_
  refine (safe_ofOutcome (safe_bindingTuples info.kind sequences)).bind fun tuples htuples => ?_
  have hvalue : ∀ tuple ∈ tuples,
      (s.bodyValue req iterators body tuple).Safe (Context.WellTyped τ) (Fits b t) := by
    intro tuple htuple
    have hscope : start.Extends (req.within (req.env.bindTuple iterators tuple)).env :=
      henv.bindValues iteratorScopeName .iteratorScope _
    exact safe_eval hs hscope (hbody tuple (fits_tuple hsequences (htuples tuple htuple)))
  cases tuples with
  | nil =>
    simp only [hdefault]
    exact safe_eval hs henv h
  | cons first others =>
    have hlength : sequences.length = iterators.length :=
      hsequences.length_eq.symm.trans hiterators.length_eq
    cases hg : Gathering.ofName info.path.last with
    | fold =>
      obtain ⟨rfl, hdeferred⟩ := hresult.of_fold hg
      obtain ⟨hfirst, hothers⟩ := List.forall_mem_cons.mp hvalue
      have hweaken : ∀ v : Value, v.Fits b t' → v.Fits d t' := fun v hv => hv.weaken hdeferred
      refine EvalM.Safe.mono hweaken (hfirst.bind fun acc hacc => ?_)
      refine .foldlM hacc fun acc tuple htuple hacc => ?_
      refine (hothers tuple htuple).bind fun next hnext => ?_
      exact safe_foldStep hs henv hg hresult hacc hnext
    | _ =>
      obtain ⟨rfl, rfl⟩ := hresult.of_gather (by rw [hg]; exact fun h => by cases h)
      refine (EvalM.Safe.mapM_all hvalue).bind fun values hvalues => safe_pure ?_
      have hrank : (info.kind.shape (sequences.map List.length) (first :: others).length).length
          = info.kind.rank iterators.length := by
        cases info.kind <;> simp [IteratorKind.shape, IteratorKind.rank, hlength]
      rw [hg, ← hrank]
      exact Gathering.fits_gather (fun h => by cases h) hvalues _

end Steps

end ModelicaFold
