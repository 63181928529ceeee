import TomatOS.Lib.FormatMeaning

/-! Which formats the loop of `kernel/lib/printf.c` reads past their end. The stages that
step over a character return at the end of the string, but the flags and the digits of a
number are passed without a look at what follows, and the terminator is then taken for a
specifier. -/

namespace TomatOS.Lib.Printf

variable {mem : Pointees} {args : VaList}

/-- The last character is no flag and no digit. -/
def Closed (format : List UInt8) : Prop :=
  ∀ c, format.getLast? = some c → c ∉ flagChars ∧ isDigit c = false

/-- What is left of a format, and that there is something left unless a flag or a digit
ends it. -/
structure Leaves (format rest : List UInt8) : Prop where
  suffix : rest <:+ format
  closed : Closed format → rest = [] → format = []

theorem Closed.suffix {format rest : List UInt8} (h : Closed format) (hsuffix : rest <:+ format) :
    Closed rest := by
  intro c hc
  obtain ⟨front, rfl⟩ := hsuffix
  apply h c
  rw [List.getLast?_append, hc]
  rfl

theorem Leaves.refl (format : List UInt8) : Leaves format format :=
  ⟨List.suffix_refl format, fun _ h => h⟩

theorem Leaves.trans {format rest rest' : List UInt8} (h : Leaves format rest)
    (h' : Leaves rest rest') : Leaves format rest' :=
  ⟨h'.suffix.trans h.suffix, fun hclosed hnil =>
    h.closed hclosed (h'.closed (hclosed.suffix h.suffix) hnil)⟩

/-- A stage that passes one character of some kind. -/
theorem Leaves.cons {c : UInt8} {format rest : List UInt8} (hc : c ∈ flagChars ∨ isDigit c = true)
    (h : Leaves format rest) : Leaves (c :: format) rest := by
  refine ⟨h.suffix.trans (List.suffix_cons c format), fun hclosed hnil => ?_⟩
  have hformat := h.closed (hclosed.suffix (List.suffix_cons c format)) hnil
  subst hformat
  obtain ⟨hflag, hdigit⟩ := hclosed c rfl
  obtain hc | hc := hc
  · exact absurd hc hflag
  · rw [hdigit] at hc
    cases hc

theorem parseFlags_leaves (format : List UInt8) (flags : PrintfFlags) :
    Leaves format (parseFlags format flags).2 := by
  induction format generalizing flags with
  | nil => exact Leaves.refl []
  | cons c format ih =>
    rw [parseFlags]
    split_ifs with hzero hminus hplus hspace hhash
    case neg => exact Leaves.refl _
    all_goals
      refine Leaves.cons (.inl ?_) (ih _)
      simp [flagChars, *]

theorem atou_leaves (format : List UInt8) (i : ℕ) : Leaves format (atou format i).2 := by
  induction format generalizing i with
  | nil => exact Leaves.refl []
  | cons c format ih =>
    rw [atou]
    split_ifs with hdigit
    · exact Leaves.cons (.inr hdigit) (ih _)
    · exact Leaves.refl _

theorem advance_leaves {format rest : List UInt8} (h : advance format = some rest) :
    Leaves format rest := by
  match format with
  | [] => cases h
  | [_] => cases h
  | c :: c' :: format =>
    obtain rfl := Option.some.inj h
    exact ⟨List.suffix_cons c _, fun _ hnil => by cases hnil⟩

namespace Directive

variable {d d' : Directive}

theorem readFlags_leaves (d : Directive) : Leaves d.format d.readFlags.format :=
  parseFlags_leaves d.format d.flags

theorem readWidth_leaves (h : d.readWidth args = some d') : Leaves d.format d'.format := by
  rw [readWidth] at h
  split at h
  · obtain rfl := Option.some.inj h
    exact Leaves.refl _
  · split_ifs at h
    · obtain rfl := Option.some.inj h
      exact atou_leaves _ _
    · obtain ⟨rest, hrest, rfl⟩ := Option.map_eq_some_iff.mp h
      exact advance_leaves hrest
    · obtain rfl := Option.some.inj h
      exact Leaves.refl _

theorem readPrecisionNumber_leaves (h : d.readPrecisionNumber args = some d') :
    Leaves d.format d'.format := by
  rw [readPrecisionNumber] at h
  split at h
  · obtain rfl := Option.some.inj h
    exact Leaves.refl _
  · split_ifs at h
    · obtain rfl := Option.some.inj h
      exact atou_leaves _ _
    · obtain ⟨rest, hrest, rfl⟩ := Option.map_eq_some_iff.mp h
      exact advance_leaves hrest
    · obtain rfl := Option.some.inj h
      exact Leaves.refl _

theorem readPrecision_leaves (h : d.readPrecision args = some d') : Leaves d.format d'.format := by
  rw [readPrecision] at h
  split_ifs at h
  · obtain ⟨rest, hrest, hnumber⟩ := Option.bind_eq_some_iff.mp h
    exact (advance_leaves hrest).trans (readPrecisionNumber_leaves hnumber)
  · obtain rfl := Option.some.inj h
    exact Leaves.refl _

theorem readLength_leaves (h : d.readLength = some d') : Leaves d.format d'.format := by
  have hstep : ∀ {format : List UInt8} {f : List UInt8 → Directive} {e : Directive},
      (advance format).map f = some e → (∀ rest, (f rest).format = rest) →
        Leaves format e.format := by
    intro format f e he hf
    obtain ⟨rest, hrest, rfl⟩ := Option.map_eq_some_iff.mp he
    rw [hf]
    exact advance_leaves hrest
  rw [readLength] at h
  simp only at h
  split_ifs at h
  · obtain ⟨e, he, hnext⟩ := Option.bind_eq_some_iff.mp h
    split_ifs at hnext
    · exact (hstep he fun _ => rfl).trans (hstep hnext fun _ => rfl)
    · obtain rfl := Option.some.inj hnext
      exact hstep he fun _ => rfl
  · exact hstep h fun _ => rfl
  · obtain ⟨e, he, hnext⟩ := Option.bind_eq_some_iff.mp h
    split_ifs at hnext
    · exact (hstep he fun _ => rfl).trans (hstep hnext fun _ => rfl)
    · obtain rfl := Option.some.inj hnext
      exact hstep he fun _ => rfl
  · exact hstep h fun _ => rfl
  · obtain rfl := Option.some.inj h
    exact Leaves.refl _

end Directive

/-- A directive leaves nothing of a format only where a flag or a digit ends it. -/
theorem readDirective_leaves {format : List UInt8} {arg : ℕ} {d : Directive}
    (h : readDirective args format arg = some d) : Leaves format d.format := by
  obtain ⟨rest, hrest, h⟩ := Option.bind_eq_some_iff.mp h
  obtain ⟨dw, hwidth, h⟩ := Option.bind_eq_some_iff.mp h
  obtain ⟨dp, hprecision, hlength⟩ := Option.bind_eq_some_iff.mp h
  exact ((advance_leaves hrest).trans (Directive.readFlags_leaves ⟨{}, 0, 0, rest, arg⟩)).trans
    ((Directive.readWidth_leaves hwidth).trans ((Directive.readPrecision_leaves hprecision).trans
      (Directive.readLength_leaves hlength)))

theorem formatText_closed {fuel arg : ℕ} {format : List UInt8} (h : Closed format) :
    formatText mem args fuel format arg ≠ none := by
  induction fuel generalizing format arg with
  | zero => exact Option.some_ne_none _
  | succ fuel ih =>
    cases format with
    | nil => exact Option.some_ne_none _
    | cons c format =>
      rw [formatText]
      split_ifs with hc
      · rw [ne_eq, Option.map_eq_none_iff]
        exact ih (h.suffix (List.suffix_cons c format))
      · cases hread : readDirective args (c :: format) arg with
        | none => exact Option.some_ne_none _
        | some d =>
          have hleaves := readDirective_leaves hread
          cases hformat : d.format with
          | nil => exact absurd (hleaves.closed h hformat) (List.cons_ne_nil _ _)
          | cons c' format' =>
            simp only [hformat]
            rw [ne_eq, Option.map_eq_none_iff]
            rw [hformat] at hleaves
            exact ih (h.suffix ((List.suffix_cons c' format').trans hleaves.suffix))

/-- A directive that ends behind its flags or the digits of its width. -/
def openEnd (flags : List Flag) (width : ℕ) : List UInt8 :=
  ch '%' :: (flags.map Flag.char ++ if width = 0 then [] else decimal width)

theorem readDirective_openEnd {arg : ℕ} {flags : List Flag} {width : ℕ}
    (h : flags ≠ [] ∨ width ≠ 0) :
    ∃ d, readDirective args (openEnd flags width) arg = some d ∧ d.format = [] := by
  have hadvance : advance (openEnd flags width) =
      some (flags.map Flag.char ++ if width = 0 then [] else decimal width) := by
    cases flags with
    | cons flag flags => rfl
    | nil =>
      obtain ⟨y, l, hcons, -⟩ := decimal_cons width
      have hwidth : width ≠ 0 := h.resolve_left fun hne => hne rfl
      rw [openEnd, if_neg hwidth, hcons]
      rfl
  have hend : ∀ d : Directive, d.format = [] → (d.readPrecision args).bind Directive.readLength =
      some d := by
    intro d hd
    rw [Directive.readPrecision, hd]
    simp [Directive.readLength, hd]
  rw [readDirective, hadvance, Option.bind_some, Directive.readFlags]
  simp only
  rw [parseFlags_map]
  by_cases hwidth : width = 0
  · have hread : Directive.readWidth args ⟨(parseFlags [] (flags.foldl Flag.set {})).1, 0, 0,
        (parseFlags [] (flags.foldl Flag.set {})).2, arg⟩ =
        some ⟨flags.foldl Flag.set {}, 0, 0, [], arg⟩ := by
      simp [Directive.readWidth, parseFlags]
    rw [if_pos hwidth, hread, Option.bind_some]
    exact ⟨_, hend _ rfl, rfl⟩
  · obtain ⟨y, l, hcons, hy, hflag⟩ := decimal_cons width
    obtain ⟨ds, hds, hlt, -⟩ := decimal_eq width
    have hread := atou_map hlt [] 0
    rw [← hds, List.append_nil, hcons] at hread
    rw [if_neg hwidth, hcons, parseFlags_stop (hflag hwidth)]
    simp only [Directive.readWidth, hy, if_true, Option.bind_some]
    exact ⟨_, hend _ (by rw [hread]; rfl), by rw [hread]; rfl⟩

theorem formatText_openEnd {fuel arg : ℕ} {flags : List Flag} {width : ℕ}
    (h : flags ≠ [] ∨ width ≠ 0) :
    formatText mem args (fuel + 1) (openEnd flags width) arg = none := by
  obtain ⟨d, hread, hformat⟩ := @readDirective_openEnd args arg flags width h
  rw [openEnd] at hread ⊢
  rw [formatText, if_neg (by simp), hread]
  simp only [hformat]

/-- A format that no flag or digit ends is never read past its end; one that ends in a
directive behind its flags or the digits of its width always is. -/
theorem kvsnprintf_in_bounds (mem : Pointees) (args : VaList) :
    (∀ format, Closed format → ∀ s n, kvsnprintf mem args s n format ≠ none) ∧
    ∀ pieces flags width, flags ≠ [] ∨ width ≠ 0 →
      ∀ s n, kvsnprintf mem args s n (formatOf pieces ++ openEnd flags width) = none := by
  have hloop := fun format =>
    @formatStringLoopWith_prints mem args format.length format 0
  constructor
  · intro format hclosed s n
    obtain ⟨text, htext⟩ := Option.ne_none_iff_exists'.mp
      (@formatText_closed mem args format.length 0 format hclosed)
    have hprints := hloop format
    rw [htext] at hprints
    obtain ⟨k, hk, -⟩ := hprints (OutputGadget.bufferGadget s n)
    rw [kvsnprintf, vsnprintfImpl, formatStringLoop, hk]
    exact Option.some_ne_none _
  · intro pieces flags width hopen s n
    obtain ⟨fuel, arg, hle, htext⟩ := @formatText_append mem args pieces 0
      (formatOf pieces ++ openEnd flags width).length (openEnd flags width)
      (by rw [List.length_append])
    obtain ⟨fuel, rfl⟩ : ∃ k, fuel = k + 1 := ⟨fuel - 1, by
      rw [openEnd, List.length_cons] at hle
      omega⟩
    rw [formatText_openEnd hopen, Option.map_none] at htext
    have hprints := hloop (formatOf pieces ++ openEnd flags width)
    rw [htext] at hprints
    rw [kvsnprintf, vsnprintfImpl, formatStringLoop, hprints, Option.map_none]

/-- `%d` is read to its end, `%-5` beyond it. -/
theorem kvsnprintf_open : kvsnprintf noPointees (fun _ => 0) none 0 ("%d".toList.map ch) ≠ none ∧
    kvsnprintf noPointees (fun _ => 0) none 0 (formatOf [] ++ openEnd [.minus] 5) = none := by
  have h := kvsnprintf_in_bounds noPointees fun _ => 0
  constructor
  · apply h.1
    intro c hc
    obtain rfl : ch 'd' = c := Option.some.inj hc
    decide
  · exact h.2 [] [.minus] 5 (.inl (List.cons_ne_nil _ _)) none 0

end TomatOS.Lib.Printf
