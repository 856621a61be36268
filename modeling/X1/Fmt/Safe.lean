import X1.Fmt.Number

/-! # What fmt.c reads

Every pointer of `fmt_vsnprintf` stays in its string: a NUL is never passed, neither in
the format nor in an argument. With the bound on the digits of a number this leaves two
faults, which both come from the caller.
-/
namespace X1.Fmt
open X1.Word X1.CString X1.Checked

/-- An argument that is missing or of another type, or an `int` or a `ptrdiff_t` that overflows -/
def Benign (fault : Fault) : Prop := fault = .argument ∨ fault = .overflow

/-- A place in a string that is reached without passing a NUL. -/
def After (s s' : Ptr) : Prop := ∃ passed,s = passed ++ s' ∧ 0 ∉ passed

section
variable {s s' s'' : Ptr} {c : UInt8} {args : List Arg} {flags : Flags} {d : Directive} {n : ℕ}

theorem After.refl (s : Ptr) : After s s := ⟨[],rfl,by simp⟩

theorem After.trans (h : After s s') (h' : After s' s'') : After s s'' := by
  obtain ⟨passed,rfl,hp⟩ := h
  obtain ⟨passed',rfl,hp'⟩ := h'
  exact ⟨passed ++ passed',(List.append_assoc _ _ _).symm,by simp [hp,hp']⟩

theorem After.cons (hc : c ≠ 0) : After (c :: s) s := ⟨[c],rfl,by simpa using hc.symm⟩

theorem After.length_le (h : After s s') : s'.length ≤ s.length := by
  obtain ⟨passed,rfl,-⟩ := h
  simp

theorem After.mem (h : After s s') (hs : 0 ∈ s) : 0 ∈ s' := by
  obtain ⟨passed,rfl,hp⟩ := h
  exact (List.mem_append.mp hs).resolve_left hp

theorem fmtConsume_safe (hs : 0 ∈ s) :
    Safe Benign (fmtConsume s) fun r => s = r.1 :: r.2 ∧ (r.1 ≠ 0 → After s r.2) := by
  cases s with
  | nil => cases hs
  | cons c s => exact ⟨rfl,fun hc => After.cons hc⟩

theorem vaWord_safe (args : List Arg) : Safe Benign (vaWord args) fun r => r.2 <:+ args := by
  unfold vaWord
  split
  · exact List.suffix_cons _ _
  · exact .inl rfl

theorem flag_unsigned {flags' : Flags} (h : flag c flags = some flags') :
    c ≠ 0 ∧ flags'.convSigned = flags.convSigned := by
  constructor
  · rintro rfl
    cases h
  · unfold flag at h
    split_ifs at h <;> cases h <;> rfl

theorem consumeFlags_safe (hs : 0 ∈ s) :
    Safe Benign (consumeFlags flags s) fun r => r.1.convSigned = flags.convSigned ∧ After s r.2 := by
  induction s generalizing flags with
  | nil => cases hs
  | cons c s ih =>
    unfold consumeFlags
    cases hflag : flag c flags with
    | none => exact ⟨rfl,After.refl _⟩
    | some flags' =>
      obtain ⟨hc,hsigned⟩ := flag_unsigned hflag
      refine (ih ((After.cons hc).mem hs)).mono fun r hr => ?_
      exact ⟨hr.1.trans hsigned,(After.cons hc).trans hr.2⟩

theorem ne_zero_of_isdigit (h : fmtIsdigit c = true) : c ≠ 0 := by
  rintro rfl
  exact absurd h (by decide)

theorem consumeNumber_safe (hs : 0 ∈ s) (hn : n < 2 ^ 31) :
    Safe Benign (consumeNumber n s) fun r => r.1 < 2 ^ 31 ∧ After s r.2 := by
  induction s generalizing n with
  | nil => cases hs
  | cons c s ih =>
    unfold consumeNumber
    split_ifs with hdigit
    · have hc := ne_zero_of_isdigit hdigit
      dsimp only
      split_ifs with hlt
      · exact (ih ((After.cons hc).mem hs) hlt).mono fun r hr => ⟨hr.1,(After.cons hc).trans hr.2⟩
      · exact .inr rfl
    · exact ⟨hn,After.refl _⟩

theorem consumeWidth_safe (hs : 0 ∈ s) :
    Safe Benign (consumeWidth s flags args) fun r =>
      (0 ≤ r.1 ∧ r.1 < 2 ^ 31) ∧ r.2.1.convSigned = flags.convSigned ∧ r.2.2.1 <:+ args ∧ After s r.2.2.2 := by
  unfold consumeWidth
  refine (fmtConsume_safe hs).bind fun r hr => ?_
  obtain ⟨c,rest⟩ := r
  dsimp only at hr ⊢
  split_ifs with hdigit hstar
  · refine (consumeNumber_safe hs (by decide)).bind fun r hr => ?_
    have hlt : (r.1 : ℤ) < 2 ^ 31 := by exact_mod_cast hr.1
    exact ⟨⟨Int.natCast_nonneg _,hlt⟩,rfl,List.suffix_rfl,hr.2⟩
  · have hrest := hr.2 (by rw [hstar]; decide)
    refine (vaWord_safe args).bind fun r hr => ?_
    have hlow := r.1.toInt32.le_toInt
    have hhigh := r.1.toInt32.toInt_lt
    split_ifs
    · exact .inr rfl
    · refine ⟨?_,rfl,hr,hrest⟩
      constructor <;> dsimp only <;> omega
    · refine ⟨?_,rfl,hr,hrest⟩
      constructor <;> dsimp only <;> omega
  · exact ⟨by norm_num,rfl,List.suffix_rfl,After.refl s⟩

theorem consumePrecision_safe (hs : 0 ∈ s) :
    Safe Benign (consumePrecision s args) fun r => r.2.1 <:+ args ∧ After s r.2.2 := by
  unfold consumePrecision
  refine (fmtConsume_safe hs).bind fun r hr => ?_
  obtain ⟨c,rest⟩ := r
  dsimp only at hr ⊢
  split_ifs with hdot
  · have hrest := hr.2 (by rw [hdot]; decide)
    refine (fmtConsume_safe (hrest.mem hs)).bind fun r' hr' => ?_
    split_ifs with hdigit hstar
    · exact (consumeNumber_safe (hrest.mem hs) (by decide)).bind fun r hr => ⟨List.suffix_rfl,hrest.trans hr.2⟩
    · have hrest' := hr'.2 (by rw [hstar]; decide)
      exact (vaWord_safe args).bind fun r hr => ⟨hr,hrest.trans hrest'⟩
    · exact ⟨List.suffix_rfl,hrest⟩
  · exact ⟨List.suffix_rfl,After.refl s⟩

theorem consumeModifier_safe (hs : 0 ∈ s) :
    Safe Benign (consumeModifier s) fun r => r.1 ≠ .ptr ∧ r.1 ≠ .size ∧ After s r.2 := by
  unfold consumeModifier
  refine (fmtConsume_safe hs).bind fun r hr => ?_
  obtain ⟨c,rest⟩ := r
  dsimp only at hr ⊢
  by_cases hc : c = 0
  · subst hc
    exact ⟨nofun,nofun,After.refl s⟩
  have hrest := hr.2 hc
  split_ifs with hh hl hz ht
  · refine (fmtConsume_safe (hrest.mem hs)).bind fun r' hr' => ?_
    split_ifs with hsame
    · exact ⟨nofun,nofun,hrest.trans (hr'.2 (hsame ▸ hc))⟩
    · exact ⟨nofun,nofun,hrest⟩
  · refine (fmtConsume_safe (hrest.mem hs)).bind fun r' hr' => ?_
    split_ifs with hsame
    · exact ⟨nofun,nofun,hrest.trans (hr'.2 (hsame ▸ hc))⟩
    · exact ⟨nofun,nofun,hrest⟩
  · exact ⟨nofun,nofun,hrest⟩
  · exact ⟨nofun,nofun,hrest⟩
  · exact ⟨nofun,nofun,After.refl s⟩

/-- What the conversions rely on: an integer has one of three bases, and only decimal numbers are signed. -/
structure Sane (d : Directive) : Prop where
  width : 0 ≤ d.width ∧ d.width < 2 ^ 31
  base : d.specifier = .int → IsBase d.base
  signed : d.flags.convSigned = true → d.base = 10
  ptr : d.modifier = .ptr → d.flags.convSigned = false
  size : d.modifier ≠ .size

/-- A chain of alternatives, one by one. -/
theorem of_ite_eq_some {α : Type*} {p Q : Prop} [Decidable p] {x y : Option α} {r : α}
    (h : (if p then x else y) = some r) (hx : x = some r → Q) (hy : y = some r → Q) : Q := by
  split at h
  · exact hx h
  · exact hy h

theorem specify_zero (d : Directive) : specify 0 d = none := rfl

theorem specify_sane {d' : Directive} (h : specify c d = some d') (hwidth : 0 ≤ d.width ∧ d.width < 2 ^ 31)
    (hsigned : d.flags.convSigned = false) (hsize : d.modifier ≠ .size) (hptr : d.modifier ≠ .ptr) :
    c ≠ 0 ∧ Sane d' := by
  constructor
  · rintro rfl
    rw [specify_zero] at h
    cases h
  · have hbase : IsBase 8 ∧ IsBase 10 ∧ IsBase 16 := ⟨.inl rfl,.inr (.inl rfl),.inr (.inr rfl)⟩
    unfold specify at h
    repeat' refine of_ite_eq_some h (fun h => ?_) (fun h => ?_)
    all_goals
      cases h
      try exact ⟨hwidth,by simp [hbase],by simp [hsigned],by simp [hsigned,hptr],by simp [hsize]⟩

theorem consumeSpecifier_safe (hs : 0 ∈ s) (hwidth : 0 ≤ d.width ∧ d.width < 2 ^ 31)
    (hsigned : d.flags.convSigned = false) (hsize : d.modifier ≠ .size) (hptr : d.modifier ≠ .ptr) :
    Safe Benign (consumeSpecifier s d) fun r => Sane r.1 ∧ After s r.2 := by
  unfold consumeSpecifier
  refine (fmtConsume_safe hs).bind fun r hr => ?_
  obtain ⟨c,rest⟩ := r
  dsimp only
  cases hspec : specify c d with
  | some d' =>
    obtain ⟨hc,hsane⟩ := specify_sane hspec hwidth hsigned hsize hptr
    exact ⟨hsane,hr.2 hc⟩
  | none => exact ⟨⟨hwidth,nofun,by simp [hsigned],by simp [hptr],hsize⟩,After.refl s⟩

theorem consumeDirective_safe (hs : 0 ∈ s) :
    Safe Benign (consumeDirective s args) fun r => Sane r.1 ∧ r.2.1 <:+ args ∧ After s r.2.2 := by
  unfold consumeDirective
  refine (consumeFlags_safe hs).bind fun r₁ h₁ => ?_
  refine (consumeWidth_safe (h₁.2.mem hs)).bind fun r₂ h₂ => ?_
  have ha₂ := h₁.2.trans h₂.2.2.2
  refine (consumePrecision_safe (ha₂.mem hs)).bind fun r₃ h₃ => ?_
  have ha₃ := ha₂.trans h₃.2
  refine (consumeModifier_safe (ha₃.mem hs)).bind fun r₄ h₄ => ?_
  have ha₄ := ha₃.trans h₄.2.2
  refine (consumeSpecifier_safe (ha₄.mem hs) h₂.1 ?_ h₄.2.1 h₄.1).bind fun r₅ h₅ => ?_
  · exact h₂.2.1.trans h₁.1
  · exact ⟨h₅.1,h₃.1.trans h₂.2.2.1,ha₄.trans h₅.2⟩

/-! ## The conversions -/

theorem checkLength_safe (n : ℕ) : Safe Benign (checkLength n) fun r => r = n := by
  unfold checkLength
  split
  · rfl
  · exact .inr rfl

end

end X1.Fmt
