import ClassCensus.Proofs.Pool
import ClassCensus.Roster
import Mathlib.Algebra.BigOperators.Group.Finset.Basic
import Mathlib.Data.Finset.Card

/-!
# What the roster operations do

`under k` is the set of the objects that are counted under `k`. Tracking a new
object adds it to one of these sets and untracking takes it out. The pools, the
reports and the aliases are told by their look-ups, one statement for each part
and operation. A pool that is not there counts as empty, as in the operations.
-/

namespace ClassCensus

namespace Roster

def under (r : Roster) (k : Descriptor) : Finset Object :=
  r.tracked.keys.toFinset.filter fun o => r.classOf? o = some k

theorem mem_under {r : Roster} {k : Descriptor} {o : Object} :
    o ∈ r.under k ↔ r.classOf? o = some k := by
  rw [under, Finset.mem_filter, List.mem_toFinset, Std.ExtTreeMap.mem_keys]
  refine ⟨fun h => h.2, fun h => ⟨?_, h⟩⟩
  rw [Std.ExtTreeMap.mem_iff_isSome_getElem?, show r.tracked[o]? = some k from h]
  rfl

theorem under_eq_of_classOf?_eq {r r' : Roster} (h : ∀ o, r'.classOf? o = r.classOf? o)
    (k : Descriptor) : r'.under k = r.under k := by
  ext o
  rw [mem_under, mem_under, h]

theorem size_eq_sum_under {r : Roster} {ks : Finset Descriptor}
    (known : ∀ o k, r.classOf? o = some k → k ∈ ks) : r.size = ∑ k ∈ ks, (r.under k).card := by
  have apart : (ks : Set Descriptor).PairwiseDisjoint r.under := by
    intro k _ k' _ other
    refine Finset.disjoint_left.mpr fun o held held' => other ?_
    rw [mem_under] at held held'
    exact Option.some.inj (held.symm.trans held')
  have whole : r.tracked.keys.toFinset = ks.biUnion r.under := by
    ext o
    rw [List.mem_toFinset, Std.ExtTreeMap.mem_keys, Std.ExtTreeMap.mem_iff_isSome_getElem?,
      Option.isSome_iff_exists, Finset.mem_biUnion]
    constructor
    · rintro ⟨k, held⟩
      exact ⟨k, known o k held, mem_under.mpr held⟩
    · rintro ⟨k, _, held⟩
      exact ⟨k, mem_under.mp held⟩
  rw [← Finset.card_biUnion apart, ← whole,
    List.toFinset_card_of_nodup Std.ExtTreeMap.nodup_keys, Std.ExtTreeMap.length_keys]
  rfl

theorem canonical_of_alias {r : Roster} {a k : Descriptor} (led : r.aliases[a]? = some k) :
    r.canonical a = k := by
  rw [canonical, Std.ExtTreeMap.getD_eq_getD_getElem?, led]
  rfl

theorem canonical_of_no_alias {r : Roster} {a : Descriptor} (free : r.aliases[a]? = none) :
    r.canonical a = a := by
  rw [canonical, Std.ExtTreeMap.getD_eq_getD_getElem?, free]
  rfl

/-- What a descriptor is led to, if not to itself, is what its alias says. -/
theorem alias_of_canonical {r : Roster} {a k : Descriptor} (moved : r.canonical a = k)
    (other : k ≠ a) : r.aliases[a]? = some k := by
  cases led : r.aliases[a]? with
  | none =>
      rw [canonical_of_no_alias led] at moved
      exact absurd moved.symm other
  | some k' => rw [← canonical_of_alias led, moved]

theorem representative?_of_pool {r : Roster} {k : Descriptor} {p : Pool}
    (pool : r.pool? k = some p) : r.representative? k = p.least? := by
  rw [representative?, pool]

section Operations

variable (r : Roster) (o p : Object) (d c k : Descriptor)

theorem under_track (fresh : r.classOf? o = none) :
    (r.track o c).under k = if c = k then insert o (r.under k) else r.under k := by
  ext p
  rw [mem_under, classOf?_track]
  by_cases here : o = p
  · subst here
    by_cases same : c = k
    · simp [same]
    · simp [same, mem_under, fresh]
  · have there : p ≠ o := fun h => here h.symm
    by_cases same : c = k <;> simp [here, there, same, mem_under]

theorem under_untrack : (r.untrack o).under k = (r.under k).erase o := by
  ext p
  rw [mem_under, classOf?_untrack, Finset.mem_erase, mem_under]
  by_cases here : o = p
  · simp [here]
  · have there : p ≠ o := fun h => here h.symm
    simp [here, there]

theorem pool?_openPool : (r.openPool c).pool? k = if c = k then some ∅ else r.pool? k := by
  simp only [openPool, pool?, Std.ExtTreeMap.getElem?_insert, Std.LawfulEqOrd.compare_eq_iff_eq]

theorem reports_enlist :
    (r.enlist o d c).reports[p]? = if o = p then some d else r.reports[p]? := by
  simp only [enlist, Std.ExtTreeMap.getElem?_insert, Std.LawfulEqOrd.compare_eq_iff_eq]

theorem aliases_enlist :
    (r.enlist o d c).aliases[k]? = if d = k then some c else r.aliases[k]? := by
  simp only [enlist, Std.ExtTreeMap.getElem?_insert, Std.LawfulEqOrd.compare_eq_iff_eq]

theorem pool?_enlist :
    (r.enlist o d c).pool? k =
      if c = k then some (((r.pool? c).getD ∅).insert d) else r.pool? k := by
  simp only [enlist, pool?, Std.ExtTreeMap.getElem?_insert, Std.LawfulEqOrd.compare_eq_iff_eq,
    Std.ExtTreeMap.getD_eq_getD_getElem?]

theorem pool?_strike_of_ne (other : c ≠ k) : (r.strike o c).pool? k = r.pool? k := by
  unfold strike
  split
  · rfl
  · simp only [pool?, Std.ExtTreeMap.getElem?_insert, Std.LawfulEqOrd.compare_eq_iff_eq,
      if_neg other]

theorem alias_of_strike {r : Roster} {o : Object} {c a k : Descriptor}
    (led : (r.strike o c).aliases[a]? = some k) : r.aliases[a]? = some k := by
  unfold strike at led
  split at led
  · exact led
  · next d _ =>
    simp only at led
    split_ifs at led
    · exact led
    · rw [Std.ExtTreeMap.getElem?_erase] at led
      split_ifs at led
      exact led

variable {r o d} (reported : r.reports[o]? = some d)

include reported

theorem reports_strike :
    (r.strike o c).reports[p]? = if o = p then none else r.reports[p]? := by
  simp only [strike, reported, Std.ExtTreeMap.getElem?_erase, Std.LawfulEqOrd.compare_eq_iff_eq]

theorem pool?_strike :
    (r.strike o c).pool? k =
      if c = k then some (((r.pool? c).getD ∅).erase d) else r.pool? k := by
  simp only [strike, reported, pool?, Std.ExtTreeMap.getElem?_insert,
    Std.LawfulEqOrd.compare_eq_iff_eq, Std.ExtTreeMap.getD_eq_getD_getElem?]

/-- An alias is dropped with the last slot of the instance. -/
theorem aliases_strike :
    (r.strike o c).aliases[k]? =
      if d = k ∧ (((r.pool? c).getD ∅).erase d).contains d = false then none
      else r.aliases[k]? := by
  simp only [strike, reported, pool?, Std.ExtTreeMap.getD_eq_getD_getElem?]
  by_cases kept : (((r.pools[c]?).getD ∅).erase d).contains d = true
  · simp only [kept, if_true, Bool.true_eq_false, and_false, if_false]
  · simp only [kept, Bool.false_eq_true, if_false, Std.ExtTreeMap.getElem?_erase,
      Std.LawfulEqOrd.compare_eq_iff_eq, and_true]

end Operations

section Undo

variable {r : Roster} {o : Object}

/-- An object that was not tracked leaves no trace when it is tracked and untracked. -/
theorem untrack_track (new : r.classOf? o = none) (c : Descriptor) :
    (r.track o c).untrack o = r := by
  have tracked : (r.tracked.insert o c).erase o = r.tracked := by
    refine Std.ExtTreeMap.ext_getElem? fun p => ?_
    simp only [Std.ExtTreeMap.getElem?_erase, Std.ExtTreeMap.getElem?_insert,
      Std.LawfulEqOrd.compare_eq_iff_eq]
    split_ifs with here
    · rw [← here]
      exact new.symm
    · rfl
  rw [track, untrack, tracked]

/-- An instance that enters a pool and leaves it again leaves no trace, if it had an alias
just where it was a member. -/
theorem strike_enlist {c d : Descriptor} {p : Pool} (silent : r.reports[o]? = none)
    (pool : r.pool? c = some p) (ascending : p.Ascending)
    (led : r.aliases[d]? = if p.contains d then some c else none) :
    (r.enlist o d c).strike o c = r := by
  have reported : (r.enlist o d c).reports[o]? = some d := by
    rw [reports_enlist, if_pos rfl]
  have back : (((r.enlist o d c).pool? c).getD ∅).erase d = p := by
    rw [pool?_enlist, if_pos rfl, Option.getD_some, pool, Option.getD_some,
      Pool.erase_insert ascending]
  have reports : ((r.enlist o d c).strike o c).reports = r.reports := by
    refine Std.ExtTreeMap.ext_getElem? fun q => ?_
    rw [reports_strike _ _ reported, reports_enlist]
    split_ifs with here
    · rw [← here, silent]
    · rfl
  have pools : ((r.enlist o d c).strike o c).pools = r.pools := by
    refine Std.ExtTreeMap.ext_getElem? fun k => ?_
    change ((r.enlist o d c).strike o c).pool? k = r.pool? k
    rw [pool?_strike _ _ reported, back, pool?_enlist]
    split_ifs with here
    · rw [← here, pool]
    · rfl
  have aliases : ((r.enlist o d c).strike o c).aliases = r.aliases := by
    refine Std.ExtTreeMap.ext_getElem? fun k => ?_
    rw [aliases_strike _ _ reported, back, aliases_enlist]
    by_cases here : d = k
    · subst here
      rw [led]
      cases p.contains d <;> simp
    · simp [here]
  have tracked := tracked_strike (r.enlist o d c) o c
  generalize (r.enlist o d c).strike o c = r' at reports pools aliases tracked
  cases r'
  cases r
  cases tracked
  cases reports
  cases pools
  cases aliases
  rfl

end Undo

end Roster

end ClassCensus
