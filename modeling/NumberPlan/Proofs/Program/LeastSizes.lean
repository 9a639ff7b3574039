import NumberPlan.Proofs.Program.Compile

/-!
# The least sizes of jumps

Sizes suffice if every jump can be encoded and has the bytes that its distance needs, where longer
jumps make for longer distances.  A round of growing does not go past any sizes that suffice
(`resize_le`), so growing finds the least of them, and fails only where there are none.

    settle items = .ok out → out has sizes that suffice, and no others that suffice are smaller
    settle items = .error e ↔ no sizes suffice                                   (settle_least)
-/

namespace NumberPlan

/-! ## Sizes that suffice -/

/-- Every jump can be encoded, in as many bytes as its distance needs or more, and two at most. -/
def JumpsSuffice : List CodeItem → Prop
  | [] => True
  | .jump t n :: items =>
    (gapTo t items ≤ maxLongBranch ∧ needOf (gapTo t items) ≤ n ∧ n ≤ 2) ∧ JumpsSuffice items
  | _ :: items => JumpsSuffice items

/-- `other` are the items with sizes of their jumps that suffice. -/
structure Suffices (items other : List CodeItem) : Prop where
  same : other.map CodeItem.unsized = items.map CodeItem.unsized
  suffice : JumpsSuffice other

theorem JumpsFit.suffice (items : List CodeItem) (h : JumpsFit items) : JumpsSuffice items := by
  induction items with
  | nil => trivial
  | cons i items ih =>
    cases i with
    | label s => exact ih h
    | plain i => exact ih h
    | dispatch d n => exact ih h
    | jump t n =>
      obtain ⟨⟨hgap, rfl⟩, h⟩ := h
      exact ⟨⟨hgap, Nat.le_refl _, needOf_le _⟩, ih h⟩

/-- A jump with bytes has a distance. -/
theorem JumpsFit.gapTo_ne_zero (t n : Nat) (after : List CodeItem) : ∀ before,
    JumpsFit (before ++ .jump t n :: after) → n ≠ 0 → gapTo t after ≠ 0 := by
  intro before
  induction before with
  | nil =>
    rintro ⟨⟨-, rfl⟩, -⟩ hn hgap
    exact hn (by rw [hgap]; rfl)
  | cons i before ih =>
    intro h
    cases i with
    | label s => exact ih h
    | plain i => exact ih h
    | dispatch d n => exact ih h
    | jump u k => exact ih h.2

/-! ## Growing -/

theorem CodeItem.size_unsized_le (i : CodeItem) : i.unsized.size ≤ i.size := by
  cases i with
  | label s => exact Nat.le_refl _
  | plain i => exact Nat.le_refl _
  | dispatch d n => exact Nat.le_refl _
  | jump t n => exact Nat.zero_le n

/-- Jumps of no bytes are the smallest. -/
theorem grownTo_of_unsized (items : List CodeItem) (hzero : items.map CodeItem.unsized = items)
    (other : List CodeItem) (h : other.map CodeItem.unsized = items) : GrownTo items other := by
  subst h
  rw [List.map_map] at hzero
  induction other with
  | nil => exact List.Forall₂.nil
  | cons i other ih =>
    obtain ⟨hi, hother⟩ := List.cons.inj hzero
    exact List.Forall₂.cons ⟨hi, i.size_unsized_le⟩ (ih hother)

/-- A round goes past no sizes that suffice. -/
theorem resize_le (items other : List CodeItem) (hle : GrownTo items other)
    (h : JumpsSuffice other) : ∃ grown, resize items = .ok grown ∧ GrownTo grown other := by
  induction hle with
  | nil => exact ⟨[], rfl, List.Forall₂.nil⟩
  | @cons i j items other hij hle ih =>
    cases i with
    | jump t n =>
      cases j <;> cases hij.1
      next m =>
      obtain ⟨⟨hgap, hneed, hm⟩, h⟩ := h
      obtain ⟨grown, hr, hgrown⟩ := ih h
      -- the distance under the smaller sizes is no longer
      have hmono := gapTo_mono t items other hle
      have hfits : gapTo t items ≤ maxLongBranch := Nat.le_trans hmono hgap
      have hsize : max n (needOf (gapTo t items)) ≤ m :=
        Nat.max_le.mpr ⟨hij.2, Nat.le_trans (needOf_mono _ _ hmono) hneed⟩
      refine ⟨.jump t (max n (needOf (gapTo t items))) :: grown, ?_,
        List.Forall₂.cons ⟨rfl, hsize⟩ hgrown⟩
      rw [resize, CodeItem.resize, if_pos hfits, hr]
      rfl
    | label s | plain i | dispatch d n =>
      cases j <;> cases hij.1
      obtain ⟨grown, hr, hgrown⟩ := ih h
      refine ⟨_ :: grown, ?_, List.Forall₂.cons ⟨rfl, Nat.le_refl _⟩ hgrown⟩
      show (resize items).map (_ :: ·) = _
      rw [hr]
      rfl

/-- Where sizes suffice, growing succeeds, with sizes no larger. -/
theorem Settles.le {items : List CodeItem} {r : Except CompileError (List CodeItem)}
    (h : Settles items r) (hitems : Growing items) (other : List CodeItem)
    (hle : GrownTo items other) (hother : JumpsSuffice other) :
    ∃ out, r = .ok out ∧ GrownTo out other := by
  induction h with
  | stable items h => exact ⟨items, rfl, hle⟩
  | fails items e h =>
    obtain ⟨grown, hr, -⟩ := resize_le items other hle hother
    rw [hitems.grow, hr] at h
    cases h
  | grows items grown r h hne hr ih =>
    rw [hitems.grow] at h
    obtain ⟨next, hnext, hgrown⟩ := resize_le items other hle hother
    rw [hnext] at h
    obtain rfl := Except.ok.inj h
    exact ih (hitems.resize hnext) hgrown

/-! ## Code of patterns -/

/-- The code of a pattern has distinct labels, and its jumps lead forward.  Growing their sizes
round by round comes to its end.  Sizes that are found suffice, no others that suffice are smaller
anywhere, and a jump that has bytes has a distance; and none are found, for a jump is too long, just
where no sizes suffice. -/
theorem settle_least (s : String) (p : Pattern) (hread : readPattern s = .ok p)
    (items : List CodeItem) (hitems : items = blocks (automatonOf p.slots)) :
    ((labelsOf items).Nodup ∧ JumpsForward items) ∧ Settles items (settle items) ∧
      (∀ out, settle items = .ok out → Suffices items out ∧
        (∀ other, Suffices items other → GrownTo out other) ∧
        ∀ before t n after, out = before ++ .jump t n :: after → n ≠ 0 → gapTo t after ≠ 0) ∧
      ((∃ d, settle items = .error (.programTooLarge d)) ↔ ¬∃ other, Suffices items other) := by
  have hproper := readPattern_proper s p hread
  have hmin := automatonOf_slots_minimal p hproper
  have hlayout := automatonOf_layoutOrder _ (p.slots_ne_nil hproper) (p.slotsProper hproper)
  have hgrowing : Growing items := hitems ▸ growing_blocks _ hmin hlayout
  have hzero : items.map CodeItem.unsized = items := hitems ▸ blocksIn_unsized _ hmin _ []
  have hsettles := settles_settle items hgrowing
  obtain ⟨hok, herror⟩ := hsettles.result hgrowing
  -- where some sizes suffice, growing ends with sizes that are no larger
  have hleast : ∀ other, Suffices items other → ∃ out, settle items = .ok out ∧ GrownTo out other :=
    fun other h => hsettles.le hgrowing other
      (grownTo_of_unsized items hzero other (h.same.trans hzero)) h.suffice
  refine ⟨⟨hgrowing.nodup, hgrowing.forward⟩, hsettles, fun out hout => ?_, ?_⟩
  · obtain ⟨hsame, hfit⟩ := hok out hout
    refine ⟨⟨hsame, hfit.suffice⟩, fun other h => ?_, ?_⟩
    · obtain ⟨out', hout', hle⟩ := hleast other h
      rw [hout] at hout'
      obtain rfl := Except.ok.inj hout'
      exact hle
    · rintro before t n after rfl
      exact hfit.gapTo_ne_zero t n after before
  · constructor
    · rintro ⟨d, hd⟩ ⟨other, h⟩
      obtain ⟨out, hout, -⟩ := hleast other h
      rw [hd] at hout
      cases hout
    · intro hnone
      cases hend : settle items with
      | error e =>
        obtain ⟨d, rfl⟩ := herror e hend
        exact ⟨d, rfl⟩
      | ok out =>
        obtain ⟨hsame, hfit⟩ := hok out hend
        exact absurd ⟨out, hsame, hfit.suffice⟩ hnone

/-- The first jump has no distance before the second has grown. -/
theorem settle_least_secondRound :
    readPattern "12|5" = .ok [[⟨2, 1, 1⟩, ⟨4, 1, 1⟩], [⟨32, 1, 1⟩]] ∧
      settle (blocks (automatonOf (Pattern.slots [[⟨2, 1, 1⟩, ⟨4, 1, 1⟩], [⟨32, 1, 1⟩]])))
        = .ok [.label 0, .dispatch (.map 0x1002 false) 2, .jump 2 1, .jump 1 1, .label 2,
            .plain (.single 2 false), .jump 1 0, .label 1, .plain (.branch 0 false)] ∧
      ∀ other,
        Suffices (blocks (automatonOf (Pattern.slots [[⟨2, 1, 1⟩, ⟨4, 1, 1⟩], [⟨32, 1, 1⟩]])))
          other →
        GrownTo [.label 0, .dispatch (.map 0x1002 false) 2, .jump 2 1, .jump 1 1, .label 2,
            .plain (.single 2 false), .jump 1 0, .label 1, .plain (.branch 0 false)] other := by
  have hread : readPattern "12|5" = .ok [[⟨2, 1, 1⟩, ⟨4, 1, 1⟩], [⟨32, 1, 1⟩]] := by cbv
  have hout : settle (blocks (automatonOf (Pattern.slots [[⟨2, 1, 1⟩, ⟨4, 1, 1⟩], [⟨32, 1, 1⟩]])))
      = .ok [.label 0, .dispatch (.map 0x1002 false) 2, .jump 2 1, .jump 1 1, .label 2,
          .plain (.single 2 false), .jump 1 0, .label 1, .plain (.branch 0 false)] := by cbv
  obtain ⟨-, -, hleast, -⟩ := settle_least "12|5" _ hread _ rfl
  exact ⟨hread, hout, (hleast _ hout).2.1⟩

end NumberPlan
