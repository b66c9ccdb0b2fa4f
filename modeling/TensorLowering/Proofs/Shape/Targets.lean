import TensorLowering.Proofs.Shape.Known

/-!
# What a reshape target means

A target stands for the shapes that agree with it entry by entry (`Matches`), and of these for the
ones with as many elements as the data (`Reaches`). Reading a target succeeds where it matches
anything, and what is read fits exactly the shapes it matches (`readTarget_fits`). Against known
data those are one shape for each size that an inferred entry may take, so comparing the numbers of
elements finds out whether one of them is left: a reshape gives the only shape that the target
reaches, and fails where there is none or more than one (`reshape_onlyReached`). What is compared are
words, so the numbers have to be some: the elements of the data, and the places that the sizes
without an inferred one make (`givenSizes`).
-/

namespace TensorLowering.Shape

/-- An entry of a target that is not inferred agrees with a size on its axis: it is that size, or it
copies it from the data. -/
def Agrees (data : List Nat) (specialZero : Bool) (axis : Nat) (entry : Int) (size : Nat) : Prop :=
  entry ≠ -1 → 0 ≤ entry ∧ if entry = 0 ∧ specialZero then data[axis]? = some size else entry = size

/-- The target has at most one inferred entry, and all others agree with the sizes of the shape. -/
structure Matches (data : List Nat) (target : List Int) (specialZero : Bool) (shape : List Nat) :
    Prop where
  inferredOnce : target.count (-1) ≤ 1
  agrees : List.Forall₂ (fun entry size => Agrees data specialZero entry.2 entry.1 size)
    target.zipIdx shape

/-- The shape matches the target and has a place for each element of the data. -/
structure Reaches (data : List Nat) (target : List Int) (specialZero : Bool) (shape : List Nat) :
    Prop extends Matches data target specialZero shape where
  elements : volume shape = volume data

/-- The shape is the only one that the target reaches. -/
structure ReachesOnly (data : List Nat) (target : List Int) (specialZero : Bool)
    (shape : List Nat) : Prop where
  reached : Reaches data target specialZero shape
  unique : ∀ other, Reaches data target specialZero other → other = shape

/-- The size that an entry on its axis asks for, unless it is inferred: it is given, or copied from the
data. -/
def givenSize (data : List Nat) (specialZero : Bool) (entry : Int × Nat) : Option Nat :=
  if entry.1 = -1 then none
  else if entry.1 = 0 ∧ specialZero then data[entry.2]?
  else some entry.1.toNat

def givenSizes (data : List Nat) (target : List Int) (specialZero : Bool) : List Nat :=
  target.zipIdx.filterMap (givenSize data specialZero)

namespace TargetEntry

/-- The size is one that the entry may stand for. -/
def Fits : TargetEntry → Nat → Prop
  | inferred, _ => True
  | size dim, n => dim = some n

end TargetEntry

variable {data : List Nat} {specialZero inferred : Bool} {axis : Nat} {target : List Int}
  {entries : List TargetEntry} {shape : List Nat}

/-- An entry is read if it is not inferred for a second time and there is a size that agrees with
it; what is read fits the sizes that do. -/
theorem readEntry_fits {entry : Int} {size : Nat} :
    (∃ first, readEntry (some (data.map some)) specialZero axis inferred entry = .ok first ∧
      first.Fits size) ↔
      (entry = -1 → inferred = false) ∧ Agrees data specialZero axis entry size := by
  unfold readEntry Agrees
  by_cases he : entry = -1
  · cases inferred <;> simp [he, TargetEntry.Fits]
  · by_cases hz : entry = 0 ∧ specialZero = true
    · cases hd : data[axis]? <;> simp [hz, hd, TargetEntry.Fits]
    · by_cases hneg : entry < 0
      · simp [he, hz, sizeOfInt, hneg, Int.not_le.mpr hneg]
      · have hsize : entry.toNat = size ↔ entry = (size : Int) := by omega
        simp [he, hz, sizeOfInt, hneg, hsize, Int.not_lt.mp hneg, TargetEntry.Fits]

/-- The entries read so far and those to come hold at most one that is inferred. -/
theorem count_cons_inferred {entry : Int} :
    (entry :: target).count (-1) + inferred.toNat ≤ 1 ↔
      (entry = -1 → inferred = false) ∧
        target.count (-1) + (inferred || decide (entry = -1)).toNat ≤ 1 := by
  by_cases he : entry = -1 <;> cases inferred <;> simp [he]

/-- A target is read if it matches anything, and what is read fits the shapes that it matches. -/
theorem readTarget_fits :
    (∃ entries, readTarget (some (data.map some)) specialZero axis inferred target = .ok entries ∧
      List.Forall₂ TargetEntry.Fits entries shape) ↔
      target.count (-1) + inferred.toNat ≤ 1 ∧
        List.Forall₂ (fun entry size => Agrees data specialZero entry.2 entry.1 size)
          (target.zipIdx axis) shape := by
  induction target generalizing axis inferred shape with
  | nil => cases inferred <;> simp [readTarget]
  | cons entry target ih =>
    rw [count_cons_inferred, List.zipIdx_cons]
    cases shape with
    | nil => simp [readTarget_cons_eq_ok]
    | cons size shape =>
      have hfirst := @readEntry_fits data specialZero inferred axis entry size
      have hrest := @ih (inferred || decide (entry = -1)) (axis + 1) shape
      rw [List.forall₂_cons]
      constructor
      · rintro ⟨entries, h, hfits⟩
        obtain ⟨first, hf, rest, hr, rfl⟩ := readTarget_cons_eq_ok.mp h
        obtain ⟨hfit, hfits⟩ := List.forall₂_cons.mp hfits
        obtain ⟨honce, hagrees⟩ := hfirst.mp ⟨first, hf, hfit⟩
        obtain ⟨hcount, hall⟩ := hrest.mp ⟨rest, hr, hfits⟩
        exact ⟨⟨honce, hcount⟩, hagrees, hall⟩
      · rintro ⟨⟨honce, hcount⟩, hagrees, hall⟩
        obtain ⟨first, hf, hfit⟩ := hfirst.mpr ⟨honce, hagrees⟩
        obtain ⟨rest, hr, hfits⟩ := hrest.mpr ⟨hcount, hall⟩
        exact ⟨_, readTarget_cons_eq_ok.mpr ⟨first, hf, rest, hr, rfl⟩, .cons hfit hfits⟩

/-- Against known data the target matches the shapes that its entries fit. -/
theorem matches_iff
    (h : readTarget (some (data.map some)) specialZero 0 false target = .ok entries) :
    Matches data target specialZero shape ↔ List.Forall₂ TargetEntry.Fits entries shape := by
  have hread := @readTarget_fits data specialZero false 0 target shape
  constructor
  · rintro ⟨honce, hagrees⟩
    obtain ⟨entries', h', hfits⟩ := hread.mpr ⟨honce, hagrees⟩
    exact Except.ok.inj (h.symm.trans h') ▸ hfits
  · intro hfits
    obtain ⟨honce, hagrees⟩ := hread.mp ⟨entries, h, hfits⟩
    exact ⟨honce, hagrees⟩

/-- The target reads if it matches a shape. -/
theorem Matches.readTarget (h : Matches data target specialZero shape) :
    ∃ entries, readTarget (some (data.map some)) specialZero 0 false target = .ok entries :=
  have ⟨entries, hread, _⟩ := (@readTarget_fits data specialZero false 0 target shape).mpr
    ⟨h.inferredOnce, h.agrees⟩
  ⟨entries, hread⟩

/-- What is read of an entry asks for its size. -/
theorem size?_readEntry {entry : Int} {first : TargetEntry}
    (h : readEntry (some (data.map some)) specialZero axis inferred entry = .ok first) :
    first.size? = (givenSize data specialZero (entry, axis)).map some := by
  unfold readEntry at h
  unfold givenSize
  dsimp only
  split at h
  · rename_i he
    rw [if_pos he]
    split at h
    · cases h
    · obtain rfl := Except.ok.inj h
      rfl
  · rename_i he
    rw [if_neg he]
    split at h
    · rename_i hz
      rw [if_pos hz]
      cases hd : data[axis]? with
      | none => simp [hd] at h
      | some size =>
        simp only [List.getElem?_map, hd, Option.map_some] at h
        obtain rfl := Except.ok.inj h
        rfl
    · rename_i hz
      rw [if_neg hz]
      obtain ⟨size, hsize, rfl⟩ := map_eq_ok.mp h
      unfold sizeOfInt at hsize
      split at hsize
      · cases hsize
      · obtain rfl := Except.ok.inj hsize
        rfl

theorem filterMap_size?_zipIdx
    (h : readTarget (some (data.map some)) specialZero axis inferred target = .ok entries) :
    entries.filterMap TargetEntry.size? =
      ((target.zipIdx axis).filterMap (givenSize data specialZero)).map some := by
  induction target generalizing axis inferred entries with
  | nil =>
    obtain rfl := Except.ok.inj h
    rfl
  | cons entry target ih =>
    obtain ⟨first, hf, rest, hr, rfl⟩ := readTarget_cons_eq_ok.mp h
    rw [List.filterMap_cons, size?_readEntry hf, List.zipIdx_cons, List.filterMap_cons, ih hr]
    cases givenSize data specialZero (entry, axis) <;> rfl

theorem filterMap_size?_readTarget
    (h : readTarget (some (data.map some)) specialZero 0 false target = .ok entries) :
    entries.filterMap TargetEntry.size? = (givenSizes data target specialZero).map some :=
  filterMap_size?_zipIdx h

/-- Since at most one entry is inferred, the shapes that the entries fit are those with one size
filled in. -/
theorem fits_iff
    (h : readTarget (some (data.map some)) specialZero axis inferred target = .ok entries) :
    List.Forall₂ TargetEntry.Fits entries shape ↔
      ∃ n, entries.map (TargetEntry.dim (some n)) = shape.map some := by
  induction target generalizing axis inferred entries shape with
  | nil =>
    obtain rfl := Except.ok.inj h
    cases shape <;> simp
  | cons entry target ih =>
    obtain ⟨first, hf, rest, hr, rfl⟩ := readTarget_cons_eq_ok.mp h
    cases shape with
    | nil => simp
    | cons size shape =>
      rw [List.forall₂_cons, ih hr]
      simp only [List.map_cons, List.cons.injEq]
      rcases readEntry_known hf with ⟨rfl, rfl, rfl⟩ | ⟨k, rfl, -⟩
      · have hrest := (readTarget_known hr).1 rfl
        refine ⟨fun ⟨_, n, hn⟩ => ⟨size, rfl, ?_⟩, fun ⟨n, _, hn⟩ => ⟨trivial, n, hn⟩⟩
        rw [← hn, map_dim_congr hrest]
      · exact ⟨fun ⟨hk, n, hn⟩ => ⟨n, hk, hn⟩, fun ⟨n, hk, hn⟩ => ⟨hk, n, hn⟩⟩

/-- The size that is filled in can be read off if there is an entry that takes it. -/
theorem map_dim_injective (h : entries.any TargetEntry.isInferred = true) {n n' : Nat}
    (heq : entries.map (TargetEntry.dim (some n)) = entries.map (TargetEntry.dim (some n'))) :
    n = n' := by
  obtain ⟨entry, hentry, hinferred⟩ := List.any_eq_true.mp h
  have hdim := List.map_inj_left.mp heq entry hentry
  cases entry with
  | inferred => exact Option.some.inj hdim
  | size dim => cases hinferred

/-- A target that reads reaches the shapes with a size filled in that makes the elements agree. -/
theorem reaches_iff
    (h : readTarget (some (data.map some)) specialZero 0 false target = .ok entries) :
    (∀ n, ∃ shape : List Nat, entries.map (TargetEntry.dim (some n)) = shape.map some) ∧
      ∀ shape, Reaches data target specialZero shape ↔
        ∃ n, entries.map (TargetEntry.dim (some n)) = shape.map some ∧
          volume (givenSizes data target specialZero) *
            (if entries.any TargetEntry.isInferred = true then n else 1) = volume data := by
  obtain ⟨-, known, hknown, hfill⟩ := readTarget_known h
  obtain rfl := eq_of_map_some (hknown.symm.trans (filterMap_size?_readTarget h))
  have hvolume : ∀ {n shape}, entries.map (TargetEntry.dim (some n)) = shape.map some →
      volume shape = volume (givenSizes data target specialZero) *
        if entries.any TargetEntry.isInferred = true then n else 1 := by
    intro n shape hshape
    obtain ⟨shape', hshape', hvolume⟩ := hfill n
    rwa [eq_of_map_some (hshape.symm.trans hshape')]
  refine ⟨fun n => (hfill n).imp fun _ => And.left,
    fun shape => ⟨fun hreach => ?_, fun ⟨n, hn, hv⟩ => ?_⟩⟩
  · obtain ⟨n, hn⟩ := (fits_iff h).mp ((matches_iff h).mp hreach.toMatches)
    exact ⟨n, hn, (hvolume hn).symm.trans hreach.elements⟩
  · exact ⟨(matches_iff h).mpr ((fits_iff h).mpr ⟨n, hn⟩), (hvolume hn).trans hv⟩

section Words

variable (hdata : volume data < UInt64.size)
  (hgiven : volume (givenSizes data target specialZero) < UInt64.size)
include hdata hgiven

/-- What known data is reshaped to is reached, and nothing else is. -/
theorem reachesOnly_of_reshape
    (h : reshape (some (data.map some)) target specialZero = .ok (shape.map some)) :
    ReachesOnly data target specialZero shape := by
  obtain ⟨entries, hread, h⟩ := bind_eq_ok.mp h
  obtain ⟨-, hreaches⟩ := reaches_iff hread
  simp only [Option.bind_some, filterMap_size?_readTarget hread, knownProduct?_map_some,
    Word.unsigned_eq hdata, Word.unsigned_eq hgiven] at h
  by_cases hany : entries.any TargetEntry.isInferred = true
  · simp only [if_pos hany] at h hreaches
    split at h
    · cases h
    · rename_i hdiv
      obtain ⟨hpos, hmod⟩ := not_or.mp hdiv
      have hinferred := Nat.mul_div_cancel' (Nat.dvd_of_mod_eq_zero (not_not.mp hmod))
      have hshape := Except.ok.inj h
      refine ⟨(hreaches shape).mpr ⟨_, hshape, hinferred⟩, fun other hother => ?_⟩
      obtain ⟨n, hn, hv⟩ := (hreaches other).mp hother
      obtain rfl : n = volume data / volume (givenSizes data target specialZero) :=
        Nat.eq_of_mul_eq_mul_left (Nat.pos_of_ne_zero hpos) (hv.trans hinferred.symm)
      exact eq_of_map_some (hn.symm.trans hshape)
  · simp only [if_neg hany] at h hreaches
    split at h
    · cases h
    · rename_i heq
      have hshape : ∀ n, entries.map (TargetEntry.dim (some n)) = shape.map some := fun _ =>
        (map_dim_congr (eq_false_of_ne_true hany)).trans (Except.ok.inj h)
      refine ⟨(hreaches shape).mpr ⟨0, hshape 0, by omega⟩, fun other hother => ?_⟩
      obtain ⟨n, hn, -⟩ := (hreaches other).mp hother
      exact eq_of_map_some (hn.symm.trans (hshape n))

/-- Known data is reshaped to a shape that nothing else competes with. -/
theorem reshape_of_reachesOnly (h : ReachesOnly data target specialZero shape) :
    reshape (some (data.map some)) target specialZero = .ok (shape.map some) := by
  obtain ⟨hreach, honly⟩ := h
  obtain ⟨entries, hread⟩ := hreach.toMatches.readTarget
  obtain ⟨hfill, hreaches⟩ := reaches_iff hread
  obtain ⟨n, hn, hv⟩ := (hreaches shape).mp hreach
  refine bind_eq_ok.mpr ⟨entries, hread, ?_⟩
  simp only [Option.bind_some, filterMap_size?_readTarget hread, knownProduct?_map_some,
    Word.unsigned_eq hdata, Word.unsigned_eq hgiven]
  by_cases hany : entries.any TargetEntry.isInferred = true
  · simp only [if_pos hany] at hv hreaches ⊢
    -- Without elements, any size could be filled in.
    have hpos : volume (givenSizes data target specialZero) ≠ 0 := by
      intro hzero
      rw [hzero, Nat.zero_mul] at hv
      obtain ⟨other, hother⟩ := hfill (n + 1)
      obtain rfl := honly other
        ((hreaches other).mpr ⟨n + 1, hother, by rw [hzero, Nat.zero_mul, hv]⟩)
      exact absurd (map_dim_injective hany (hn.trans hother.symm)) (Nat.ne_of_lt n.lt_succ_self)
    rw [← hv, Nat.mul_mod_right, Nat.mul_div_cancel_left n (Nat.pos_of_ne_zero hpos), hn]
    exact if_neg (by simpa using hpos)
  · simp only [if_neg hany] at hv ⊢
    rw [if_neg (by omega), map_dim_congr (eq_false_of_ne_true hany), hn]
    rfl

end Words

/-- Known data is reshaped to a shape exactly if that is the only shape that the target reaches, and
where there is no such shape the reshape fails. The numbers of elements that are compared have to be
words. -/
theorem reshape_onlyReached (hdata : volume data < UInt64.size)
    (hgiven : volume (givenSizes data target specialZero) < UInt64.size) :
    (∀ shape, reshape (some (data.map some)) target specialZero = .ok (shape.map some) ↔
      ReachesOnly data target specialZero shape) ∧
    ((∃ error, reshape (some (data.map some)) target specialZero = .error error) ↔
      ¬∃ shape, ReachesOnly data target specialZero shape) := by
  have honly (shape : List Nat) : reshape (some (data.map some)) target specialZero =
      .ok (shape.map some) ↔ ReachesOnly data target specialZero shape :=
    ⟨reachesOnly_of_reshape hdata hgiven, reshape_of_reachesOnly hdata hgiven⟩
  refine ⟨honly, ?_, fun hnone => ?_⟩
  · rintro ⟨error, herror⟩ ⟨shape, hshape⟩
    cases herror.symm.trans ((honly shape).mpr hshape)
  · cases h : reshape (some (data.map some)) target specialZero with
    | error error => exact ⟨error, rfl⟩
    | ok dims =>
      obtain ⟨shape, rfl, -⟩ := reshape_known h
      exact absurd ⟨shape, (honly shape).mp h⟩ hnone

/-- Two rows of three elements become three rows of two, the one size inferred and the other given. -/
theorem rows_reached : volume [2, 3] < UInt64.size ∧ volume (givenSizes [2, 3] [-1, 2] true) < UInt64.size ∧
    ReachesOnly [2, 3] [-1, 2] true [3, 2] := by
  have hdata : volume [2, 3] < UInt64.size := by decide
  have hgiven : volume (givenSizes [2, 3] [-1, 2] true) < UInt64.size := by decide
  exact ⟨hdata, hgiven, ((reshape_onlyReached hdata hgiven).1 [3, 2]).mp (by decide)⟩

/-- The product of the sizes wraps around to the two elements there are, so the target is accepted; but
no shape of so many elements has two. -/
theorem target_wrapsAround :
    reshape (some ([2].map some)) [3, 6148914691236517206] false =
      .ok ([3, 6148914691236517206].map some) ∧
    ¬∃ shape, ReachesOnly [2] [3, 6148914691236517206] false shape := by
  refine ⟨by decide, fun ⟨shape, hshape⟩ => ?_⟩
  obtain ⟨⟨-, hagrees⟩, helements⟩ := hshape.reached
  obtain _ | ⟨hfirst, _ | ⟨hsecond, _ | _⟩⟩ := hagrees
  have hthree : (3 : Int) = _ := (hfirst (by decide)).2
  have hlarge : (6148914691236517206 : Int) = _ := (hsecond (by decide)).2
  obtain rfl := Int.ofNat_inj.mp hthree
  obtain rfl := Int.ofNat_inj.mp hlarge
  exact absurd helements (by decide)

/-- Without elements an inferred size could be anything, so no shape is the only one. -/
example : reshape (some [some 0, some 3]) [-1, 0] false =
    .error (.shape (.inferredSize 0 [-1, 0])) := rfl

end TensorLowering.Shape
