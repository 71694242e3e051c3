import TemporalGraph.Clock
import TemporalGraph.Proofs.Instant.StoredForm
import TemporalGraph.Proofs.Timeline.History
/-!
What a run reads of its own writes. Main statement: the read instant comes after the write instant,
as an instant and as text, and a read finds the latest version by then, which is the one that the
run wrote unless another one starts in between.
-/

namespace TemporalGraph

namespace Instant

open Calendar (Date daysBeforeYear daysBeforeYear_mono daysBeforeYear_yearOfDay)

theorem second_of_fourDigitYear {t : Instant} (h : t.HasFourDigitYear) :
    -62167219200 ≤ t.second ∧ t.second < 253402300800 := by
  obtain ⟨h0, h9⟩ := h
  simp only [civil, Date.ofDay] at h0 h9
  obtain ⟨hlow, hhigh⟩ := daysBeforeYear_yearOfDay (t.second / 86400 + Date.epoch)
  have hfirst := daysBeforeYear_mono h0
  have hlast := daysBeforeYear_mono (Int.add_le_add_right h9 1)
  have hstart : daysBeforeYear 0 = -366 := by decide
  have hend : daysBeforeYear (9999 + 1) = 3652059 := by decide
  simp only [Date.epoch] at hlow hhigh hfirst hlast
  omega

theorem ofSecond?_eq_some {t : Instant} (h : t.HasFourDigitYear) {nano : Nat}
    (hn : nano < 1000000000) : ∃ u, ofSecond? t.second nano hn = some u ∧ u.second = t.second := by
  obtain ⟨h0, h9⟩ := h
  have hyear : firstYear ≤ (Date.ofDay (t.second / 86400)).year ∧
      (Date.ofDay (t.second / 86400)).year ≤ lastYear := by
    simp only [civil] at h0 h9
    unfold firstYear lastYear
    omega
  exact ⟨_, if_pos hyear, rfl⟩

/-- A step forward adds to the second, also from within a leap second. -/
theorem addSeconds?_of_pos {t : Instant} {s : Int} (hs : 0 < s)
    (h : (startOf (t.second + s)).HasFourDigitYear) :
    ∃ u, t.addSeconds? s = some u ∧ u.second = t.second + s := by
  by_cases hl : t.isLeap = true
  · rw [addSeconds?, dif_pos hl, if_pos hs]
    exact ofSecond?_eq_some h _
  · rw [addSeconds?, dif_neg hl]
    exact ofSecond?_eq_some h _

end Instant

namespace Clock

theorem startAt_readInstant {w : Instant} {s : Int} (hs : 0 < s) (hw : w.HasFourDigitYear)
    (hr : (Instant.startOf (w.second + s)).HasFourDigitYear) :
    ∃ r, startAt w s = .ok ⟨w, s⟩ ∧ readInstant ⟨w, s⟩ = .ok r ∧ r.HasFourDigitYear ∧
      w.second < r.second := by
  obtain ⟨r, hadd, hsecond⟩ := Instant.addSeconds?_of_pos hs hr
  have hlow := (Instant.second_of_fourDigitYear hw).1
  have hhigh := (Instant.second_of_fourDigitYear hr).2
  have hoffset : s.natAbs ≤ offsetLimit.natAbs := by
    simp only [Instant.startOf] at hhigh
    simp only [offsetLimit]
    omega
  have hyear : r.HasFourDigitYear := by
    rw [Instant.HasFourDigitYear, Instant.civil, hsecond]
    exact hr
  refine ⟨r, if_pos hoffset, ?_, hyear, by omega⟩
  simp only [readInstant, hadd]

end Clock

namespace Timeline

open Window

theorem Seamless.eq_or_precedes {ws : List Window} (h : Seamless ws) {v w : Window} (hv : v ∈ ws)
    (hw : w ∈ ws) : v = w ∨ v.Precedes w ∨ w.Precedes v := by
  by_cases hne : v = w
  · exact .inl hne
  · have hsymm : Std.Symm fun a b : Window => a.Precedes b ∨ b.Precedes a := ⟨fun _ _ => Or.symm⟩
    have hp : ws.Pairwise fun a b : Window => a.Precedes b ∨ b.Precedes a := h.pairwise.imp .inl
    exact .inr (hp.forall hv hw hne)

theorem Seamless.start_le_of_windowAt? {tl : Timeline} (h : Seamless tl.windows) {t : Instant}
    {v w : Window} (hv : tl.windowAt? t = some v) (hw : w ∈ tl.windows) (ht : w.start ≤ t) :
    w.start ≤ v.start := by
  obtain ⟨hmem, hc⟩ := (windowAt?_eq_some_iff h.pairwise).1 hv
  rcases h.eq_or_precedes hmem hw with rfl | hvw | hwv
  · exact Instant.le_refl _
  · exact absurd ((contains_iff.1 hc).2.mono ht) hvw.2
  · exact Instant.le_of_lt hwv.1

theorem exists_windowAt? {tl : Timeline} (h : Seamless tl.windows) (ho : OpenEnded tl.windows)
    {t : Instant} {w : Window} (hw : w ∈ tl.windows) (ht : w.start ≤ t) :
    ∃ v, tl.windowAt? t = some v := by
  have hne : tl.windows ≠ [] := List.ne_nil_of_mem hw
  have hlast : (tl.windows.getLast hne).stop = none :=
    ho _ (List.getLast?_eq_some_getLast hne)
  have hspan : InSpan tl.windows t :=
    ⟨⟨w, hw, ht⟩, _, List.getLast_mem hne, fun stop hstop => by simp [hlast] at hstop⟩
  exact Option.isSome_iff_exists.1 ((windowAt?_isSome_iff h).2 hspan)

theorem Insertion.inserted_mem {t : Instant} {ws ws' : List Window} {change : WindowChange}
    (h : Insertion t ws ws' change) : change.inserted ∈ ws' ∧ change.inserted.start = t := by
  cases h with
  | split hs he ha => simp
  | place hb hs ha => simp

/-- A run writes at `w` and reads `s` seconds later, in the years of four digits. Its read instant
comes after `w` as text too. In whatever history it writes, a read then finds the version with the
greatest start by the read instant: the one written at `w`, unless another one starts behind `w` and
by the read instant. -/
theorem windowAt?_readInstant {w : Instant} {s : Int} (hs : 1 ≤ s) (hw : w.HasFourDigitYear)
    (hr : (Instant.startOf (w.second + s)).HasFourDigitYear) (ts : List Instant) :
    ∃ c r, Clock.startAt w s = .ok c ∧ c.writeInstant = w ∧ c.readInstant = .ok r ∧
      r.HasFourDigitYear ∧ w.toText < r.toText ∧ Text.bytes w.toText < Text.bytes r.toText ∧
      ∃ v, ((ofInstants ts).insert w).1.windowAt? r = some v ∧
        v ∈ ((ofInstants ts).insert w).1.windows ∧ v.start ≤ r ∧
        (∀ u ∈ ((ofInstants ts).insert w).1.windows, u.start ≤ r → u.start ≤ v.start) ∧
        (v = ((ofInstants ts).insert w).2.inserted ↔
          ∀ u ∈ ((ofInstants ts).insert w).1.windows, ¬(w < u.start ∧ u.start ≤ r)) := by
  have hpos : 0 < s := by omega
  obtain ⟨r, hstart, hread, hyear, hlt⟩ := Clock.startAt_readInstant hpos hw hr
  have hwr : w < r := .inl hlt
  have htrunc : w.truncate < r.truncate := .inl hlt
  refine ⟨_, r, hstart, rfl, hread, hyear, (Instant.toText_lt_iff hw hyear).2 htrunc,
    (Instant.bytes_toText_lt_iff hw hyear).2.1.2 htrunc, ?_⟩
  have hbefore := history_ofInstants ts
  have hafter := hbefore.insert w
  obtain ⟨hmem, hat⟩ := (insertion hbefore.seamless.pairwise w).inserted_mem
  have hreached : ((ofInstants ts).insert w).2.inserted.start ≤ r := hat ▸ Instant.le_of_lt hwr
  obtain ⟨v, hv⟩ := exists_windowAt? hafter.seamless hafter.openEnded hmem hreached
  obtain ⟨hvmem, hvc⟩ := (windowAt?_eq_some_iff hafter.seamless.pairwise).1 hv
  have hvr : v.start ≤ r := (contains_iff.1 hvc).1
  have hgreatest : ∀ u ∈ ((ofInstants ts).insert w).1.windows, u.start ≤ r → u.start ≤ v.start :=
    fun u hu => hafter.seamless.start_le_of_windowAt? hv hu
  refine ⟨v, hv, hvmem, hvr, hgreatest, ?_, fun hnone => ?_⟩
  · rintro rfl u hu ⟨hlt, hle⟩
    exact Instant.not_lt.2 (hat ▸ hgreatest u hu hle) hlt
  · -- The version that is read starts at `w`, and only one window does.
    have hle : w ≤ v.start := hat ▸ hgreatest _ hmem hreached
    have hnot : ¬w < v.start := fun hlt => hnone v hvmem ⟨hlt, hvr⟩
    rcases hafter.seamless.eq_or_precedes hvmem hmem with heq | hpre | hpre
    · exact heq
    · exact absurd (Instant.lt_of_le_of_lt hle (hat ▸ hpre.1)) (Instant.lt_irrefl w)
    · exact absurd (hat ▸ hpre.1) hnot

/-- A leap second ends 2016 and is read a second later; another version starts behind the read. -/
theorem windowAt?_readInstant_leap_second :
    let leap : Instant := ⟨1483228799, 1999999999, by decide, by decide⟩
    let read : Instant := ⟨1483228800, 999999999, by decide, by decide⟩
    let later := Instant.startOf 1483228801
    leap.HasFourDigitYear ∧ (Instant.startOf (leap.second + 1)).HasFourDigitYear ∧
      Clock.readInstant ⟨leap, 1⟩ = .ok read ∧ leap.toText < read.toText ∧
      ((ofInstants [later]).insert leap).1.windowAt? read = some ⟨leap, some later⟩ := by
  intro leap read later
  have hw : leap.HasFourDigitYear := by decide
  have hr : (Instant.startOf (leap.second + 1)).HasFourDigitYear := by decide
  have hwindows : ((ofInstants [later]).insert leap).1.windows =
      [⟨leap, some later⟩, ⟨later, none⟩] := by decide
  have hadd : leap.addSeconds? 1 = some read := by decide +kernel
  have hclock : Clock.readInstant ⟨leap, 1⟩ = .ok read := by simp only [Clock.readInstant, hadd]
  obtain ⟨c, r, hc, -, hread, -, htext, -, v, hv, -, -, -, hiff⟩ :=
    windowAt?_readInstant (Int.le_refl 1) hw hr [later]
  obtain rfl : ⟨leap, 1⟩ = c := Except.ok.inj hc
  obtain rfl := Except.ok.inj (hclock.symm.trans hread)
  have hnone : ∀ u ∈ ((ofInstants [later]).insert leap).1.windows,
      ¬(leap < u.start ∧ u.start ≤ read) := by
    rw [hwindows]
    decide
  have hinserted : ((ofInstants [later]).insert leap).2.inserted = ⟨leap, some later⟩ := by decide
  exact ⟨hw, hr, hread, htext, hinserted ▸ hiff.2 hnone ▸ hv⟩

end Timeline

end TemporalGraph
