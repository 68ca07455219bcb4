import Mathlib.Data.Finset.Card
import Termwise.Config
import Termwise.Proofs.Locations

/-!
# Pragmas in force

The value of a pragma at a place is settled by two orders, that of the places in the source and
that of the calls that set it. Of the settings not after the place those at the greatest location
count, and of these the one that was made last. The store keeps no history, only the last setting
of each pragma at each location; this is enough to answer for every history that leads to it.

## Main definitions

* `PragmaStore.setAll`: the store after a sequence of calls
* `PragmaStore.InForce`: the setting that holds at a place, by the history of settings
* `PragmaStore.Tracks`: a store holds the last settings of a history

## Main results

* `PragmaStore.Tracks.setAll`: calls keep a store true to its history
* `PragmaStore.InForce.unique`: at most one setting is in force
* `PragmaStore.check?_setAll`: the values of the pragmas after any calls
-/

namespace Termwise

/-! ## Names -/

namespace Flag

variable {name : String} {flag : Flag}

/-- A pragma is found by its name and by no other one. -/
theorem ofName?_eq_some_iff : ofName? name = some flag ↔ flag.name = name := by
  constructor
  · intro h
    simpa using List.find?_some h
  · rintro rfl
    cases flag <;> decide

theorem ofName?_eq_none_iff : ofName? name = none ↔ ∀ flag : Flag, flag.name ≠ name := by
  simp only [Option.eq_none_iff_forall_ne_some, ne_eq, ofName?_eq_some_iff]

end Flag

/-! ## Histories -/

/-- A call that sets a pragma by name. -/
structure PragmaCall where
  name : String
  value : Bool
  location : Location

/-- The setting that a call makes if it names a pragma. -/
def PragmaCall.setting? (call : PragmaCall) : Option PragmaSetting :=
  (Flag.ofName? call.name).map fun flag => ⟨flag, call.location, call.value⟩

theorem PragmaCall.setting?_eq_some_iff {call : PragmaCall} {s : PragmaSetting} :
    call.setting? = some s ↔
      s.flag.name = call.name ∧ s.location = call.location ∧ s.value = call.value := by
  simp only [setting?, Option.map_eq_some_iff, Flag.ofName?_eq_some_iff]
  constructor
  · rintro ⟨flag, hname, rfl⟩
    exact ⟨hname, rfl, rfl⟩
  · rintro ⟨hname, hlocation, hvalue⟩
    exact ⟨s.flag, hname, by rw [← hlocation, ← hvalue]⟩

/-- The pragma that a setting is of and the place where it stands. -/
def PragmaSetting.spot (s : PragmaSetting) : Flag × Location := (s.flag, s.location)

namespace PragmaStore

/-- The store after some calls. -/
def setAll (store : PragmaStore) (calls : List PragmaCall) : PragmaStore :=
  calls.foldl (fun store call => (store.set call.name call.value call.location).2.2) store

@[simp] theorem setAll_nil (store : PragmaStore) : store.setAll [] = store := rfl

theorem setAll_cons (store : PragmaStore) (call : PragmaCall) (calls : List PragmaCall) :
    store.setAll (call :: calls) =
      (store.set call.name call.value call.location).2.2.setAll calls := rfl

/-- The setting was made, and none was made for its spot later. -/
def LastMade (made : List PragmaSetting) (s : PragmaSetting) : Prop :=
  ∃ earlier later, made = earlier ++ s :: later ∧ ∀ t ∈ later, t.spot ≠ s.spot

/-- **The setting in force** at a place by the settings made: one of the pragma that is not after
the place, at the greatest location of all that are not, and the last one made there. -/
structure InForce (made : List PragmaSetting) (flag : Flag) (place : Location)
    (s : PragmaSetting) : Prop where
  last : LastMade made s
  flag_eq : s.flag = flag
  le : s.location ≤ place
  greatest : ∀ t ∈ made, t.flag = flag → t.location ≤ place → t.location ≤ s.location

variable {store : PragmaStore} {made : List PragmaSetting} {s t : PragmaSetting} {flag : Flag}
  {place : Location} {calls : List PragmaCall}

theorem LastMade.mem (h : LastMade made s) : s ∈ made := by
  obtain ⟨earlier, later, rfl, -⟩ := h
  simp

/-- What is last made after one more setting. -/
theorem lastMade_concat :
    LastMade (made ++ [t]) s ↔ s = t ∨ LastMade made s ∧ t.spot ≠ s.spot := by
  constructor
  · rintro ⟨earlier, later, hmade, hlater⟩
    rcases List.eq_nil_or_concat later with rfl | ⟨later, u, rfl⟩
    · obtain ⟨-, hs⟩ := List.append_inj' hmade rfl
      exact .inl (List.singleton_inj.1 hs).symm
    · rw [List.concat_eq_append, ← List.cons_append, ← List.append_assoc] at hmade
      obtain ⟨rfl, hu⟩ := List.append_inj' hmade rfl
      obtain rfl := List.singleton_inj.1 hu
      rw [List.concat_eq_append, List.forall_mem_append, List.forall_mem_singleton] at hlater
      exact .inr ⟨⟨earlier, later, rfl, hlater.1⟩, hlater.2⟩
  · rintro (rfl | ⟨⟨earlier, later, rfl, hlater⟩, hspot⟩)
    · exact ⟨made, [], rfl, by simp⟩
    · refine ⟨earlier, later ++ [t], by simp, ?_⟩
      rw [List.forall_mem_append, List.forall_mem_singleton]
      exact ⟨hlater, hspot⟩

/-- Some setting was made last for each spot. -/
theorem exists_lastMade (h : t ∈ made) : ∃ s, LastMade made s ∧ s.spot = t.spot := by
  -- from the back, for the last setting of a history is last made whatever came before it
  induction made using List.reverseRecOn with
  | nil => cases h
  | append_singleton made u ih =>
    by_cases hu : u.spot = t.spot
    · exact ⟨u, lastMade_concat.2 (.inl rfl), hu⟩
    · rcases List.mem_append.1 h with h | h
      · obtain ⟨s, hs, hspot⟩ := ih h
        exact ⟨s, lastMade_concat.2 (.inr ⟨hs, hspot ▸ hu⟩), hspot⟩
      · exact (hu (List.mem_singleton.1 h ▸ rfl)).elim

/-- At most one setting was made last for a spot. -/
theorem LastMade.unique (hs : LastMade made s) (ht : LastMade made t) (hspot : s.spot = t.spot) :
    s = t := by
  induction made using List.reverseRecOn with
  | nil => cases hs.mem
  | append_singleton made u ih =>
    rw [lastMade_concat] at hs ht
    rcases hs with rfl | ⟨hs, hus⟩ <;> rcases ht with rfl | ⟨ht, hut⟩
    · rfl
    · exact (hut hspot).elim
    · exact (hus hspot.symm).elim
    · exact ih hs ht

/-- **At most one setting** is in force. -/
theorem InForce.unique (hs : InForce made flag place s) (ht : InForce made flag place t) :
    s = t := by
  refine hs.last.unique ht.last (Prod.ext (hs.flag_eq.trans ht.flag_eq.symm) (le_antisymm ?_ ?_))
  · exact ht.greatest s hs.last.mem hs.flag_eq hs.le
  · exact hs.greatest t ht.last.mem ht.flag_eq ht.le

/-! ## Stores and their histories -/

/-- **A store and its history**: it holds the last setting of each spot, once. -/
structure Tracks (store : PragmaStore) (made : List PragmaSetting) : Prop where
  mem_iff : ∀ s, s ∈ store.settings ↔ LastMade made s
  nodup : (store.settings.map PragmaSetting.spot).Nodup

/-- Of each spot that was set some setting is stored. -/
theorem Tracks.exists_stored (h : store.Tracks made) (ht : t ∈ made) :
    ∃ s ∈ store.settings, s.spot = t.spot := by
  obtain ⟨s, hs, hspot⟩ := exists_lastMade ht
  exact ⟨s, (h.mem_iff s).2 hs, hspot⟩

theorem tracks_empty : Tracks .empty [] where
  mem_iff _ := iff_of_false List.not_mem_nil fun h => List.not_mem_nil h.mem
  nodup := List.nodup_nil

theorem mem_insert : t ∈ (store.insert s).settings ↔
    t = s ∨ t ∈ store.settings ∧ s.spot ≠ t.spot := by
  rw [ne_comm]
  simp [insert, PragmaSetting.spot, or_iff_not_imp_left]

/-- A setting is the last one of its history. -/
theorem Tracks.insert (h : store.Tracks made) (s : PragmaSetting) :
    (store.insert s).Tracks (made ++ [s]) where
  mem_iff t := by rw [mem_insert, lastMade_concat, h.mem_iff]
  nodup := by
    refine List.nodup_cons.2 ⟨fun hs => ?_, h.nodup.sublist (List.filter_sublist.map _)⟩
    obtain ⟨t, ht, hspot⟩ := List.mem_map.1 hs
    rw [List.mem_filter] at ht
    obtain ⟨hflag, hlocation⟩ := Prod.mk.inj hspot
    simp [hflag, hlocation] at ht

/-- A call adds the setting that it makes, if any, to the history. -/
theorem Tracks.set (h : store.Tracks made) (call : PragmaCall) :
    (store.set call.name call.value call.location).2.2.Tracks
      (made ++ call.setting?.toList) := by
  unfold PragmaStore.set PragmaCall.setting?
  cases Flag.ofName? call.name with
  | none => simpa using h
  | some flag => exact h.insert _

/-- **Calls** keep a store true to its history. -/
theorem Tracks.setAll (h : store.Tracks made) (calls : List PragmaCall) :
    (store.setAll calls).Tracks (made ++ calls.filterMap PragmaCall.setting?) := by
  induction calls generalizing store made with
  | nil => simpa using h
  | cons call calls ih =>
    rw [setAll_cons]
    have hnext := ih (h.set call)
    rw [List.append_assoc] at hnext
    cases hcall : call.setting? <;> simpa [hcall] using hnext

/-! ## Lookup -/

/-- The later of two settings is one of them and at a location not before the other one's. -/
theorem later_spec (s t : PragmaSetting) : (later s t = s ∨ later s t = t) ∧
    s.location ≤ (later s t).location ∧ t.location ≤ (later s t).location := by
  unfold later
  split
  · rename_i h
    exact ⟨.inr rfl, h.le, le_rfl⟩
  · rename_i h
    exact ⟨.inl rfl, le_rfl, not_lt.1 h⟩

/-- The latest of some settings, found by comparing each with the best one so far, is one of them,
and none of them is at a greater location. -/
theorem foldl_later {step : Option PragmaSetting → PragmaSetting → Option PragmaSetting}
    (hstep : ∀ best s, step (some best) s = some (later best s)) (settings : List PragmaSetting)
    (best : PragmaSetting) :
    ∃ s ∈ best :: settings, settings.foldl step (some best) = some s ∧
      ∀ t ∈ best :: settings, t.location ≤ s.location := by
  induction settings generalizing best with
  | nil => exact ⟨best, by simp⟩
  | cons t settings ih =>
    obtain ⟨s, hs, hfold, hgreatest⟩ := ih (later best t)
    obtain ⟨hlater, hbest, ht⟩ := later_spec best t
    rw [List.forall_mem_cons] at hgreatest
    refine ⟨s, ?_, by rw [List.foldl_cons, hstep, hfold], ?_⟩
    · rcases List.mem_cons.1 hs with rfl | hs
      · rcases hlater with h | h <;> simp [h]
      · exact List.mem_cons_of_mem _ (List.mem_cons_of_mem _ hs)
    · simp only [List.forall_mem_cons]
      exact ⟨hbest.trans hgreatest.1, ht.trans hgreatest.1, hgreatest.2⟩

/-- The setting for a place is found by comparing each with the best one so far. -/
theorem settingAt?_eq_foldl (store : PragmaStore) (flag : Flag) (place : Location) :
    ∃ step : Option PragmaSetting → PragmaSetting → Option PragmaSetting,
      (∀ s, step none s = some s) ∧ (∀ best s, step (some best) s = some (later best s)) ∧
      store.settingAt? flag place =
        (store.settings.filter fun s => s.flag == flag && s.location ≤ place).foldl step none := by
  refine ⟨_, fun s => ?_, fun best s => ?_, rfl⟩ <;> rfl

/-- **The setting found** for a place is one of the pragma's not after it, and none of these is at a
greater location; none is found if there is no such setting. -/
theorem settingAt?_spec (store : PragmaStore) (flag : Flag) (place : Location) :
    (∃ s ∈ store.settings, store.settingAt? flag place = some s ∧ s.flag = flag ∧
        s.location ≤ place ∧
        ∀ t ∈ store.settings, t.flag = flag → t.location ≤ place → t.location ≤ s.location) ∨
      store.settingAt? flag place = none ∧
        ∀ t ∈ store.settings, t.flag = flag → ¬ t.location ≤ place := by
  have hmem : ∀ t, t ∈ store.settings.filter (fun s => s.flag == flag && s.location ≤ place) ↔
      t ∈ store.settings ∧ t.flag = flag ∧ t.location ≤ place := by
    simp
  obtain ⟨step, hfirst, hstep, hfound⟩ := store.settingAt?_eq_foldl flag place
  rw [hfound]
  generalize store.settings.filter (fun s => s.flag == flag && s.location ≤ place) = before at hmem
  cases before with
  | nil => exact .inr ⟨rfl, fun t ht hflag hle => List.not_mem_nil ((hmem t).2 ⟨ht, hflag, hle⟩)⟩
  | cons best before =>
    obtain ⟨s, hs, hfold, hgreatest⟩ := foldl_later hstep before best
    obtain ⟨hs', hflag, hle⟩ := (hmem s).1 hs
    exact .inl ⟨s, hs', by rw [List.foldl_cons, hfirst, hfold], hflag, hle,
      fun t ht htflag htle => hgreatest t ((hmem t).2 ⟨ht, htflag, htle⟩)⟩

theorem check?_name (store : PragmaStore) (flag : Flag) (place : Location) :
    store.check? flag.name place =
      some (((store.settingAt? flag place).map PragmaSetting.value).getD flag.defaultValue) := by
  rw [check?, Flag.ofName?_eq_some_iff.2 rfl, Option.map_some]
  cases store.settingAt? flag place <;> rfl

/-- **A store answers** for its history: with the value of the one setting in force, or with the
default if no setting of the pragma is at the place or before it. -/
theorem Tracks.check? (h : store.Tracks made) (flag : Flag) (place : Location) :
    (∃ s, InForce made flag place s ∧ (∀ t, InForce made flag place t → t = s) ∧
        store.check? flag.name place = some s.value) ∨
      (∀ s ∈ made, s.flag = flag → ¬ s.location ≤ place) ∧
        store.check? flag.name place = some flag.defaultValue := by
  rw [check?_name]
  rcases store.settingAt?_spec flag place with
    ⟨s, hs, hfound, hflag, hle, hgreatest⟩ | ⟨hfound, hnone⟩
  · have hforce : InForce made flag place s := by
      refine ⟨(h.mem_iff s).1 hs, hflag, hle, fun t ht htflag htle => ?_⟩
      -- `t` may have been replaced since, but then by a setting at its place
      obtain ⟨u, hu, hspot⟩ := h.exists_stored ht
      obtain ⟨huflag, hulocation⟩ := Prod.mk.inj hspot
      rw [← hulocation]
      exact hgreatest u hu (huflag.trans htflag) (hulocation ▸ htle)
    exact .inl ⟨s, hforce, fun t ht => ht.unique hforce, by rw [hfound]; rfl⟩
  · refine .inr ⟨fun t ht htflag htle => ?_, by rw [hfound]; rfl⟩
    obtain ⟨u, hu, hspot⟩ := h.exists_stored ht
    obtain ⟨huflag, hulocation⟩ := Prod.mk.inj hspot
    exact hnone u hu (huflag.trans htflag) (hulocation ▸ htle)

/-- **The size** of a store is the number of spots that were set. -/
theorem Tracks.size (h : store.Tracks made) :
    store.size = (made.map PragmaSetting.spot).toFinset.card := by
  rw [PragmaStore.size, ← List.length_map PragmaSetting.spot, ← List.toFinset_card_of_nodup h.nodup]
  congr 1
  ext spot
  simp only [List.mem_toFinset, List.mem_map]
  constructor
  · rintro ⟨s, hs, rfl⟩
    exact ⟨s, ((h.mem_iff s).1 hs).mem, rfl⟩
  · rintro ⟨t, ht, rfl⟩
    exact h.exists_stored ht

/-! ## Pragmas apart from each other -/

/-- The settings of one pragma. -/
def ofFlag (store : PragmaStore) (flag : Flag) : List PragmaSetting :=
  store.settings.filter fun s => s.flag == flag

/-- A setting changes those of its own pragma only, and these regardless of the others. -/
theorem ofFlag_insert (store : PragmaStore) (s : PragmaSetting) (flag : Flag) :
    (store.insert s).ofFlag flag =
      if s.flag = flag then s :: (store.ofFlag flag).filter fun t => t.location ≠ s.location
      else store.ofFlag flag := by
  unfold ofFlag insert
  rw [List.filter_cons, List.filter_filter]
  by_cases hflag : s.flag = flag
  · rw [if_pos hflag, if_pos (by simpa using hflag), List.filter_filter]
    congr 1
    refine List.filter_congr fun t _ => ?_
    rw [Bool.eq_iff_iff]
    by_cases ht : t.flag = flag <;> simp [hflag, ht]
  · rw [if_neg hflag, if_neg (by simpa using hflag)]
    refine List.filter_congr fun t _ => ?_
    by_cases ht : t.flag = flag <;> simp [ht, Ne.symm hflag]

theorem set_name (store : PragmaStore) (flag : Flag) (value : Bool) (place : Location) :
    store.set flag.name value place =
      (true, .pragmaSet place flag.name value, store.insert ⟨flag, place, value⟩) := by
  rw [PragmaStore.set, Flag.ofName?_eq_some_iff.2 rfl]

/-- A call with another name leaves the settings of a pragma alone. -/
theorem ofFlag_set_of_ne {name : String} (hname : name ≠ flag.name) (value : Bool) :
    (store.set name value place).2.2.ofFlag flag = store.ofFlag flag := by
  unfold PragmaStore.set
  cases hother : Flag.ofName? name with
  | none => rfl
  | some other =>
    have hne : other ≠ flag := by
      rintro rfl
      exact hname (Flag.ofName?_eq_some_iff.1 hother).symm
    rw [ofFlag_insert, if_neg hne]

/-- **Calls for other pragmas** could as well be left out, as far as one pragma is concerned. -/
theorem ofFlag_setAll {store' : PragmaStore} (h : store.ofFlag flag = store'.ofFlag flag)
    (calls : List PragmaCall) :
    (store.setAll calls).ofFlag flag =
      (store'.setAll (calls.filter fun call => call.name = flag.name)).ofFlag flag := by
  -- the two stores drift apart in the other pragmas, but agree on this one after each call
  induction calls generalizing store store' with
  | nil => exact h
  | cons call calls ih =>
    rw [setAll_cons, List.filter_cons]
    by_cases hname : call.name = flag.name
    · rw [if_pos (by simpa using hname), setAll_cons]
      apply ih
      simp only [hname, set_name, ofFlag_insert, h]
    · rw [if_neg (by simpa using hname)]
      exact ih ((ofFlag_set_of_ne hname call.value).trans h)

/-- The value of a pragma is found among its own settings. -/
theorem check?_congr {store' : PragmaStore} (h : store.ofFlag flag = store'.ofFlag flag)
    (place : Location) : store.check? flag.name place = store'.check? flag.name place := by
  have hbefore (store : PragmaStore) :
      (store.settings.filter fun s => s.flag == flag && s.location ≤ place) =
        (store.ofFlag flag).filter fun s => s.location ≤ place := by
    rw [ofFlag, List.filter_filter]
    exact List.filter_congr fun s _ => Bool.and_comm ..
  simp only [check?_name, settingAt?, hbefore, h]

/-! ## Configured pragmas -/

/-- The calls that configured pragmas amount to. -/
def configuredCalls (configured : List (String × Bool)) : List PragmaCall :=
  configured.map fun pragma => ⟨pragma.1, pragma.2, .start⟩

/-- A store before the first call: it is empty or has the settings of a configuration. -/
inductive Opens : (store : PragmaStore) → (configured : List (String × Bool)) → Prop
  | empty : Opens .empty []
  | config {config : Config} {store : PragmaStore} (h : config.pragmaStore = .ok store) :
    Opens store config.pragmas

theorem eq_setAll_of_foldlM
    {step : PragmaStore → String × Bool → Except ConfigError PragmaStore}
    (hstep : ∀ store pragma store', step store pragma = .ok store' →
      store' = (store.set pragma.1 pragma.2 .start).2.2)
    {configured : List (String × Bool)} {first : PragmaStore}
    (h : configured.foldlM step first = .ok store) :
    store = first.setAll (configuredCalls configured) := by
  induction configured generalizing first with
  | nil => cases h; rfl
  | cons pragma configured ih =>
    rw [List.foldlM_cons] at h
    cases hnext : step first pragma with
    | error e => rw [hnext] at h; cases h
    | ok next =>
      rw [hnext] at h
      obtain rfl := hstep first pragma next hnext
      exact ih h

/-- **A configuration** sets its pragmas one after the other. -/
theorem eq_setAll_of_pragmaStore {config : Config} (h : config.pragmaStore = .ok store) :
    store = PragmaStore.empty.setAll (configuredCalls config.pragmas) := by
  unfold Config.pragmaStore at h
  refine eq_setAll_of_foldlM (fun store pragma store' hstep => ?_) h
  obtain ⟨name, value⟩ := pragma
  simp only at hstep
  split at hstep
  · rename_i hname
    cases hstep
    simp only [PragmaStore.set, hname]
  · cases hstep

theorem Opens.tracks {configured : List (String × Bool)} (h : store.Opens configured) :
    store.Tracks ((configuredCalls configured).filterMap PragmaCall.setting?) := by
  cases h with
  | empty => exact tracks_empty
  | config h =>
    rw [eq_setAll_of_pragmaStore h]
    exact tracks_empty.setAll _

/-- A configured value is in force wherever no call for its pragma is at the place or before it. -/
theorem check?_configured {configured : List (String × Bool)}
    (hnodup : (configured.map Prod.fst).Nodup) {value : Bool}
    (hmem : (flag.name, value) ∈ configured)
    (htracks : store.Tracks
      ((configuredCalls configured ++ calls).filterMap PragmaCall.setting?))
    (hcalls : ∀ call ∈ calls, call.name = flag.name → ¬ call.location ≤ place) :
    store.check? flag.name place = some value := by
  have hstart : Location.start ≤ place := by
    rw [← Location.position_le_iff, Position.le_def]
    simp only [Location.position, Location.start, UInt32.toNat_zero]
    omega
  rcases htracks.check? flag place with ⟨s, hs, -, hcheck⟩ | ⟨hnone, -⟩
  · rw [hcheck]
    -- the setting in force comes from the configuration, for each call is for something else
    obtain ⟨call, hcall, hsetting⟩ := List.mem_filterMap.1 hs.last.mem
    obtain ⟨hname, hlocation, hvalue⟩ := PragmaCall.setting?_eq_some_iff.1 hsetting
    rw [hs.flag_eq] at hname
    rcases List.mem_append.1 hcall with hcall | hcall
    · obtain ⟨pragma, hpragma, rfl⟩ := List.mem_map.1 hcall
      have hsame := List.inj_on_of_nodup_map hnodup hpragma hmem hname.symm
      rw [hvalue, hsame]
    · exact (hcalls call hcall hname.symm (hlocation ▸ hs.le)).elim
  · refine (hnone ⟨flag, .start, value⟩ (List.mem_filterMap.2 ?_) rfl hstart).elim
    refine ⟨⟨flag.name, value, .start⟩, List.mem_append_left _ (List.mem_map.2 ⟨_, hmem, rfl⟩), ?_⟩
    exact PragmaCall.setting?_eq_some_iff.2 ⟨rfl, rfl, rfl⟩

/-- **Pragmas after any calls**, from the empty store or from that of a configuration. A known
pragma has the value of the setting in force at the place, or its default where none is. Calls for
other pragmas make no difference to it, and a configured value holds wherever no call for the pragma
is at the place or before it. An unknown name is refused, has no value and changes nothing. The
store holds as many settings as pragmas were set at different locations. -/
theorem check?_setAll {configured : List (String × Bool)} (hopens : store.Opens configured)
    (calls : List PragmaCall) :
    let after := store.setAll calls
    let made := (configuredCalls configured ++ calls).filterMap PragmaCall.setting?
    (∀ flag place,
        (∃ s, InForce made flag place s ∧ (∀ t, InForce made flag place t → t = s) ∧
            after.check? flag.name place = some s.value) ∨
          (∀ s ∈ made, s.flag = flag → ¬ s.location ≤ place) ∧
            after.check? flag.name place = some flag.defaultValue) ∧
      (∀ (flag : Flag) place, after.check? flag.name place =
        (store.setAll (calls.filter fun call => call.name = flag.name)).check? flag.name place) ∧
      ((configured.map Prod.fst).Nodup → ∀ (flag : Flag) value, (flag.name, value) ∈ configured →
        ∀ place, (∀ call ∈ calls, call.name = flag.name → ¬ call.location ≤ place) →
          after.check? flag.name place = some value) ∧
      (∀ name, (∀ flag : Flag, flag.name ≠ name) → ∀ (store : PragmaStore) value place,
        (store.set name value place).1 = false ∧ (store.set name value place).2.2 = store ∧
          store.check? name place = none) ∧
      (∀ (flag : Flag) (store : PragmaStore) value place,
        (store.set flag.name value place).1 = true) ∧
      after.size = (made.map PragmaSetting.spot).toFinset.card ∧
      (after.isEmpty = true ↔ made = []) := by
  intro after made
  have htracks : after.Tracks made := by
    simpa [made, List.filterMap_append] using hopens.tracks.setAll calls
  refine ⟨htracks.check?, fun flag place => check?_congr (ofFlag_setAll rfl calls) place,
    fun hnodup flag value hmem place hcalls => check?_configured hnodup hmem htracks hcalls,
    fun name hname store value place => ?_, fun flag store value place => ?_, htracks.size, ?_⟩
  · rw [PragmaStore.set, check?, Flag.ofName?_eq_none_iff.2 hname]
    exact ⟨rfl, rfl, rfl⟩
  · rw [set_name]
  · simp [isEmpty, htracks.size]

/-- A configured value holds up to the first call for its pragma, whatever was called before for a
name that is unknown. -/
theorem check?_setAll_configured :
    let config : Config := ⟨[], [("top-level evaluation", true)]⟩
    let calls : List PragmaCall :=
      [⟨"top-level evaluation", false, ⟨8, 1⟩⟩, ⟨"fast math", true, ⟨3, 1⟩⟩]
    ∃ store, config.pragmaStore = .ok store ∧
      (store.setAll calls).check? "top-level evaluation" ⟨7, 40⟩ = some true ∧
      (store.setAll calls).size = 2 := by
  intro config calls
  obtain ⟨store, hstore⟩ : ∃ store, config.pragmaStore = .ok store := ⟨_, rfl⟩
  obtain ⟨-, -, hconfigured, -, -, hsize, -⟩ := check?_setAll (.config hstore) calls
  refine ⟨store, hstore, hconfigured (by decide) .topLevelEvaluation true (by decide) _ ?_, ?_⟩
  · decide
  · rw [hsize]
    decide

end PragmaStore

end Termwise
