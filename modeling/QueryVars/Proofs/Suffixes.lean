import Mathlib.Data.List.Nodup
import QueryVars.Supply.Generator

/-!
# Suffixes tell names apart

A generated name is a stem with a suffix behind it and nothing in between, and a
stem may itself look like a generated name. The suffix can still be read off: its
body holds no separator, so the last separator of the name begins it. Names that
were given different suffixes therefore differ, whatever their stems, and
`Generates.nodup` says so of everything that one supply is used for.
-/

namespace QueryVars

theorem toDigits_inj {i k : Nat} (h : Nat.toDigits 10 i = Nat.toDigits 10 k) : i = k := by
  have hvalue := congrArg (fun cs => Nat.ofDigitChars 10 cs 0) h
  simpa only [Nat.ofDigitChars_toDigits (by decide : 1 < 10) (by decide : 10 ≤ 10)] using hvalue

namespace Suffix

/-- The body holds no part of a separator. -/
def Plain (s : Suffix) : Prop := '_' ∉ s.body.toList

def counted (c : UInt64) : Suffix := ⟨toString c.toNat⟩

theorem toList_counted (c : UInt64) : (counted c).body.toList = Nat.toDigits 10 c.toNat := by
  change (Nat.repr c.toNat).toList = _
  rw [Nat.repr_eq_ofList_toDigits, String.toList_ofList]

theorem plain_counted (c : UInt64) : (counted c).Plain := by
  rw [Plain, toList_counted]
  exact Nat.underscore_not_in_toDigits

theorem counted_inj {c d : UInt64} (h : counted c = counted d) : c = d := by
  have hdigits : Nat.toDigits 10 c.toNat = Nat.toDigits 10 d.toNat := by
    rw [← toList_counted, h, toList_counted]
  exact UInt64.toNat_inj.1 (toDigits_inj hdigits)

/-- The counter does not come back to a value before it has been everywhere. -/
theorem counted_later {c : UInt64} {i : Nat} (hi : i + 1 < UInt64.size) :
    counted (c + 1 + UInt64.ofNat i) ≠ counted c := by
  intro h
  have hvalue := congrArg UInt64.toNat (counted_inj h)
  unfold UInt64.size at hi
  simp only [UInt64.toNat_add, UInt64.toNat_ofNat', UInt64.toNat_one] at hvalue
  have := c.toNat_lt
  omega

end Suffix

namespace Var

variable {v : Var} {s t : Suffix}

def EndsIn (v : Var) (s : Suffix) : Prop := s.text.toList <:+ v.name.toList

theorem extend_endsIn (v : Var) (s : Suffix) : (v.extend s).EndsIn s :=
  ⟨v.name.toList, by simp [extend]⟩

theorem EndsIn.separator (h : v.EndsIn s) : Suffix.separator.toList <:+: v.name.toList := by
  refine List.IsInfix.trans ?_ h.isInfix
  rw [Suffix.text, String.toList_append]
  exact (List.prefix_append _ _).isInfix

/-- Two plain suffixes of one length at most: the longer one would hold the
separator of the shorter one in its body. -/
theorem eq_of_text_suffix (ht : t.Plain) (h : s.text.toList <:+ t.text.toList) : s = t := by
  rw [Suffix.toList_text, Suffix.toList_text] at h
  rcases List.suffix_cons_iff.1 h with he | h
  · have hbody : s.body.toList = t.body.toList := (List.cons.inj (List.cons.inj he).2).2
    exact congrArg Suffix.mk (String.toList_inj.1 hbody)
  · rcases List.suffix_cons_iff.1 h with he | h
    · have hbody : '_' :: s.body.toList = t.body.toList := (List.cons.inj he).2
      exact absurd (hbody ▸ List.mem_cons_self) ht
    · exact absurd (h.subset List.mem_cons_self) ht

theorem EndsIn.unique (hs : s.Plain) (ht : t.Plain) (h : v.EndsIn s) (h' : v.EndsIn t) : s = t := by
  rcases List.suffix_or_suffix_of_suffix h h' with hst | hts
  · exact eq_of_text_suffix ht hst
  · exact (eq_of_text_suffix hs hts).symm

end Var

theorem Generator.name_endsIn (g : Generator) (s : Suffix) : (g.name s).EndsIn s :=
  ⟨(g.category.marker ++ g.naming.config.baseName).toList, by simp [Generator.name]⟩

-- ---------------------------------------------------------------------------
-- The two sources
-- ---------------------------------------------------------------------------

/-- What random text looks like: it holds no separator, and the counter prints
nothing like it. -/
structure RandomBody (body : String) : Prop where
  plain : '_' ∉ body.toList
  uncounted : ∀ c : UInt64, body ≠ toString c.toNat

/-- The counter prints at most twenty digits, so longer text is none of its
values even if it is all digits. -/
theorem RandomBody.of_length {body : String} (hp : '_' ∉ body.toList) (h : 20 < body.length) :
    RandomBody body := by
  refine ⟨hp, ?_⟩
  rintro c rfl
  have hc : c.toNat < 10 ^ 20 := Nat.lt_trans c.toNat_lt (by decide)
  have hlen : (toString c.toNat).length ≤ 20 := (Nat.length_repr_le_iff (by decide)).2 hc
  omega

namespace Supply

variable {s s' : Supply}

def Distinct (first last : Supply) : Prop :=
  ∀ i k, first.issued ≤ i → i < k → k < last.issued → first.source i ≠ first.source k

/-- Every random body drawn from `first` up to `last` is random text, and no two
of them are equal. Nothing is asked of bodies that are not drawn. -/
structure Reliable (first last : Supply) : Prop where
  random : ∀ k, first.issued ≤ k → k < last.issued → RandomBody (first.source k)
  distinct : first.Distinct last

theorem Reliable.advance (h : s.Reliable s') (strategy : Strategy) :
    (s.advance strategy).Reliable s' := by
  have hle : s.issued ≤ (s.advance strategy).issued := by
    cases strategy with
    | sequential => exact Nat.le_refl _
    | random => exact Nat.le_succ _
  constructor
  · intro k hk
    rw [source_advance]
    exact h.random k (Nat.le_trans hle hk)
  · intro i k hi
    rw [source_advance]
    exact h.distinct i k (Nat.le_trans hle hi)

end Supply

def numberedBodies (k : Nat) : String := "#" ++ toString k

theorem toList_numberedBodies (k : Nat) :
    (numberedBodies k).toList = '#' :: Nat.toDigits 10 k := by
  rw [numberedBodies, String.toList_append]
  change '#' :: (Nat.repr k).toList = _
  rw [Nat.repr_eq_ofList_toDigits, String.toList_ofList]

theorem Supply.reliable_numbered (counter : UInt64) (issued : Nat) (last : Supply) :
    Reliable ⟨counter, issued, numberedBodies⟩ last := by
  constructor
  · refine fun k _ _ => ⟨?_, fun c he => ?_⟩
    · rw [toList_numberedBodies, List.mem_cons, not_or]
      exact ⟨by decide, Nat.underscore_not_in_toDigits⟩
    · have he : numberedBodies k = (Suffix.counted c).body := he
      have hdigits : '#' :: Nat.toDigits 10 k = Nat.toDigits 10 c.toNat := by
        rw [← toList_numberedBodies, he, Suffix.toList_counted]
      have hmark : '#' ∈ Nat.toDigits 10 c.toNat := hdigits ▸ List.mem_cons_self
      exact absurd (Nat.isDigit_of_mem_toDigits (by decide) (by decide) hmark) (by decide)
  · intro i k _ hik _ he
    have he : numberedBodies i = numberedBodies k := he
    have hdigits : '#' :: Nat.toDigits 10 i = '#' :: Nat.toDigits 10 k := by
      rw [← toList_numberedBodies, he, toList_numberedBodies]
    exact Nat.ne_of_lt hik (toDigits_inj (List.cons.inj hdigits).2)

def Strategy.countedDraws (strategy : Strategy) (n : Nat) : Nat :=
  if strategy = .sequential then n else 0

theorem Strategy.count_replicate (strategy : Strategy) (n : Nat) :
    (List.replicate n strategy).count .sequential = strategy.countedDraws n := by
  simp [List.count_replicate, countedDraws]

/-- A stretch of a run: from `s` to `s'` the strategies drew one suffix each, and
each went to the end of the name that stands in its place. -/
inductive Generates : Supply → List Strategy → List Var → Supply → Prop
  | nil {s} : Generates s [] [] s
  | cons {s strategy drawn v names s'} : v.EndsIn (s.suffix strategy) →
      Generates (s.advance strategy) drawn names s' →
      Generates s (strategy :: drawn) (v :: names) s'

namespace Generates

variable {s s' s'' : Supply} {drawn more : List Strategy} {names others : List Var} {v : Var}

theorem one {strategy : Strategy} (h : v.EndsIn (s.suffix strategy)) :
    Generates s [strategy] [v] (s.advance strategy) :=
  .cons h .nil

theorem append (h : Generates s drawn names s') (h' : Generates s' more others s'') :
    Generates s (drawn ++ more) (names ++ others) s'' := by
  induction h with
  | nil => exact h'
  | cons hv _ ih => exact .cons hv (ih h')

theorem issued_eq (h : Generates s drawn names s') :
    s'.issued = s.issued + drawn.count .random := by
  induction h with
  | nil => rfl
  | @cons s strategy drawn _ _ _ _ _ ih =>
    rw [ih]
    cases strategy with
    | sequential => rw [List.count_cons_of_ne (by decide)]; rfl
    | random => rw [List.count_cons_self, Nat.add_comm _ 1, ← Nat.add_assoc]; rfl

theorem issued_le (h : Generates s drawn names s') : s.issued ≤ s'.issued :=
  h.issued_eq ▸ Nat.le_add_right _ _

theorem length_names (h : Generates s drawn names s') :
    names.length = drawn.count .sequential + drawn.count .random := by
  induction h with
  | nil => rfl
  | @cons s strategy drawn _ _ _ _ _ ih =>
    rw [List.length_cons, ih]
    cases strategy with
    | sequential => rw [List.count_cons_self, List.count_cons_of_ne (by decide)]; omega
    | random => rw [List.count_cons_self, List.count_cons_of_ne (by decide)]; omega

theorem endsIn (h : Generates s drawn names s') (hv : v ∈ names) :
    (∃ i < drawn.count .sequential, v.EndsIn (Suffix.counted (s.counter + UInt64.ofNat i))) ∨
      ∃ k, s.issued ≤ k ∧ k < s'.issued ∧ v.EndsIn ⟨s.source k⟩ := by
  induction h with
  | nil => cases hv
  | @cons s strategy drawn w names s' hw h ih =>
    cases strategy with
    | sequential =>
      rw [List.count_cons_self]
      rcases List.mem_cons.1 hv with rfl | hv
      · refine .inl ⟨0, Nat.succ_pos _, ?_⟩
        have hzero : s.counter + UInt64.ofNat 0 = s.counter := UInt64.add_zero _
        exact hzero.symm ▸ hw
      · rcases ih hv with ⟨i, hi, he⟩ | hk
        · refine .inl ⟨i + 1, Nat.succ_lt_succ hi, ?_⟩
          have hnext : s.counter + UInt64.ofNat (i + 1) = s.counter + 1 + UInt64.ofNat i := by
            rw [UInt64.ofNat_add, UInt64.add_assoc, UInt64.add_comm (UInt64.ofNat i)]
            rfl
          exact hnext ▸ he
        · exact .inr hk
    | random =>
      rw [List.count_cons_of_ne (by decide)]
      rcases List.mem_cons.1 hv with rfl | hv
      · exact .inr ⟨s.issued, Nat.le_refl _, h.issued_le, hw⟩
      · rcases ih hv with hi | ⟨k, hk, hlt, he⟩
        · exact .inl hi
        · exact .inr ⟨k, Nat.le_of_succ_le hk, hlt, he⟩

/-- No name is generated twice, provided that the counter does not come round. -/
theorem nodup (h : Generates s drawn names s') (hr : s.Reliable s')
    (hc : drawn.count .sequential ≤ UInt64.size) : names.Nodup := by
  induction h with
  | nil => exact .nil
  | @cons s strategy drawn v names s' hv h ih =>
    have hcount : drawn.count .sequential ≤ UInt64.size :=
      Nat.le_trans ((List.sublist_cons_self ..).count_le _) hc
    refine (ih (hr.advance _) hcount).cons fun hm => ?_
    have hlater := h.endsIn hm
    cases strategy with
    | sequential =>
      have hv : v.EndsIn (Suffix.counted s.counter) := hv
      rcases hlater with ⟨i, hi, he⟩ | ⟨k, hk, hlt, he⟩
      · rw [List.count_cons_self] at hc
        have hsame := hv.unique (Suffix.plain_counted _) (Suffix.plain_counted _) he
        exact Suffix.counted_later (by omega) hsame.symm
      · have hk := hr.random k hk hlt
        have hsame := hv.unique (Suffix.plain_counted _) hk.plain he
        exact hk.uncounted _ (Suffix.mk.inj hsame).symm
    | random =>
      have hfirst := hr.random s.issued (Nat.le_refl _) h.issued_le
      have hv : v.EndsIn ⟨s.source s.issued⟩ := hv
      rcases hlater with ⟨i, hi, he⟩ | ⟨k, hk, hlt, he⟩
      · have hsame := hv.unique hfirst.plain (Suffix.plain_counted _) he
        exact hfirst.uncounted _ (Suffix.mk.inj hsame)
      · have hk' := hr.random k (Nat.le_of_succ_le hk) hlt
        have hsame := hv.unique hfirst.plain hk'.plain he
        exact hr.distinct s.issued k (Nat.le_refl _) hk hlt (Suffix.mk.inj hsame)

end Generates

end QueryVars
