import SnsxOS.Arm64.Browser
import Mathlib.Data.List.Destutter

/-!
# Browser navigation

The tabs, the bookmarks and the history of the browser against a model that keeps every visit: the
history shows the most recent visits, a visit to the address just visited counting once.
-/

namespace SnsxOS.Arm64

open Framework

/-- A non-empty address that fits the arrays of `g_browser`. -/
structure Address where
  text : Bytes
  ne_nil : text ≠ []
  length_lt : text.length < browserAddressMax
  deriving DecidableEq

namespace Address

theorem text_injective : Function.Injective text := by
  rintro ⟨text, _, _⟩ ⟨_, _, _⟩ rfl
  rfl

def ofText (text : Bytes) : Option Address :=
  if h : text ≠ [] ∧ text.length < browserAddressMax then some ⟨text, h.1, h.2⟩ else none

theorem copy (a : Address) : strcopyLimit a.text browserAddressMax = a.text :=
  strcopyLimit_of_lt a.length_lt

end Address

inductive NavigationOp where
  | navigateTo (address : Address)
  | openTab (address : Address)
  | activateTab (index : Nat)
  | toggleBookmark (address : Address)
  | recordVisit (address : Address)

def NavigationOp.toBrowserOp : NavigationOp → BrowserOp
  | .navigateTo address => .navigateTo address.text
  | .openTab address => .openTab address.text
  | .activateTab index => .activateTab index
  | .toggleBookmark address => .toggleBookmark address.text
  | .recordVisit address => .recordVisit address.text

/-- Bookmarks and visits are listed newest first; no visit is forgotten. -/
structure Navigation where
  tabs : List Address
  active : Nat
  bookmarks : List Address
  visits : List Address

namespace Navigation

def start : Navigation where
  tabs := browserDefault.tabs.filterMap Address.ofText
  active := browserDefault.activeTab
  bookmarks := browserDefault.bookmarks.filterMap Address.ofText
  visits := []

def navigateTo (m : Navigation) (address : Address) : Navigation :=
  { m with tabs := m.tabs.set m.active address, visits := address :: m.visits }

def step (m : Navigation) : NavigationOp → Navigation
  | .navigateTo address => m.navigateTo address
  | .openTab address =>
      if m.tabs.length < browserTabMax then
        { m with
          tabs := m.tabs ++ [address]
          active := m.tabs.length
          visits := address :: m.visits }
      else m.navigateTo address
  | .activateTab index =>
      match m.tabs[index]? with
      | none => m
      | some address => { m with active := index, visits := address :: m.visits }
  | .toggleBookmark address =>
      { m with
        bookmarks :=
          if address ∈ m.bookmarks then m.bookmarks.erase address
          else (address :: m.bookmarks).take browserBookmarkMax }
  | .recordVisit address => { m with visits := address :: m.visits }

/-- What holds of the model at all times. -/
structure Valid (m : Navigation) : Prop where
  tabs_le : m.tabs.length ≤ browserTabMax
  active_lt : m.active < m.tabs.length
  bookmarks_le : m.bookmarks.length ≤ browserBookmarkMax
  bookmarks_nodup : m.bookmarks.Nodup

theorem valid_start : start.Valid where
  tabs_le := by decide +kernel
  active_lt := by decide +kernel
  bookmarks_le := by decide +kernel
  bookmarks_nodup := by decide +kernel

theorem Valid.navigateTo {m : Navigation} (h : m.Valid) (address : Address) :
    (m.navigateTo address).Valid :=
  ⟨by simpa [Navigation.navigateTo] using h.tabs_le,
    by simpa [Navigation.navigateTo] using h.active_lt, h.bookmarks_le, h.bookmarks_nodup⟩

theorem Valid.step {m : Navigation} (h : m.Valid) (op : NavigationOp) : (m.step op).Valid := by
  cases op with
  | navigateTo address => exact h.navigateTo address
  | openTab address =>
    simp only [Navigation.step]
    split
    · rename_i hroom
      exact ⟨by simpa using hroom, by simp, h.bookmarks_le, h.bookmarks_nodup⟩
    · exact h.navigateTo address
  | activateTab index =>
    simp only [Navigation.step]
    cases htab : m.tabs[index]? with
    | none => exact h
    | some address =>
      obtain ⟨hlt, -⟩ := List.getElem?_eq_some_iff.mp htab
      exact ⟨h.tabs_le, hlt, h.bookmarks_le, h.bookmarks_nodup⟩
  | toggleBookmark address =>
    refine ⟨h.tabs_le, h.active_lt, ?_, ?_⟩
    · simp only [Navigation.step]
      split
      · exact List.erase_sublist.length_le.trans h.bookmarks_le
      · exact List.length_take_le _ _
    · simp only [Navigation.step]
      split
      · exact h.bookmarks_nodup.erase _
      · rename_i hnew
        exact (List.nodup_cons.mpr ⟨hnew, h.bookmarks_nodup⟩).sublist (List.take_sublist _ _)
  | recordVisit address => exact ⟨h.tabs_le, h.active_lt, h.bookmarks_le, h.bookmarks_nodup⟩

end Navigation

/-! ## The most recent items of a list -/

section Recent

variable {α : Type*} [DecidableEq α]

/-- The last `limit` items of a growing list, newest first, equal neighbours counting once. -/
def mostRecent (limit : Nat) (items : List α) : List α := (items.destutter (· ≠ ·)).take limit

theorem destutter_cons (item : α) (items : List α) :
    (item :: items).destutter (· ≠ ·) =
      if items.head? = some item then items.destutter (· ≠ ·)
      else item :: items.destutter (· ≠ ·) := by
  cases items with
  | nil => simp
  | cons next items =>
    rw [List.destutter_cons_cons]
    by_cases h : next = item
    · subst h
      simp [List.destutter_cons']
    · simp [h, Ne.symm h, List.destutter_cons']

theorem head?_destutter (items : List α) :
    (items.destutter (· ≠ ·)).head? = items.head? := by
  induction items with
  | nil => rfl
  | cons item items ih =>
    rw [destutter_cons]
    split
    · rename_i h
      rw [ih, h, List.head?_cons]
    · rfl

theorem head?_mostRecent {limit : Nat} (hlimit : limit ≠ 0) (items : List α) :
    (mostRecent limit items).head? = items.head? := by
  rw [mostRecent, List.head?_take, if_neg hlimit, head?_destutter]

theorem mostRecent_cons {limit : Nat} (hlimit : limit ≠ 0) (item : α) (items : List α) :
    mostRecent limit (item :: items) =
      if (mostRecent limit items).head? = some item then mostRecent limit items
      else (item :: mostRecent limit items).take limit := by
  obtain ⟨n, rfl⟩ := Nat.exists_eq_succ_of_ne_zero hlimit
  rw [head?_mostRecent hlimit, mostRecent, destutter_cons]
  split
  · rfl
  · simp [mostRecent, List.take_take]

theorem isChain_mostRecent (limit : Nat) (items : List α) :
    (mostRecent limit items).IsChain (· ≠ ·) :=
  (List.isChain_destutter (· ≠ ·) items).take limit

end Recent

/-! ## The browser follows the model -/

/-- The state of the browser shows the model. -/
structure Shows (s : BrowserSystem) (m : Navigation) : Prop where
  tabs : s.browser.tabs = m.tabs.map Address.text
  active : s.browser.activeTab = m.active
  address : m.tabs[m.active]?.map Address.text = some s.address
  bookmarks : s.browser.bookmarks = m.bookmarks.map Address.text
  history : s.browser.history = mostRecent browserHistoryMax (m.visits.map Address.text)

theorem map_text_start : Navigation.start.tabs.map Address.text = browserDefault.tabs ∧
    Navigation.start.bookmarks.map Address.text = browserDefault.bookmarks ∧
    Navigation.start.tabs[0]?.map Address.text = some (ascii "snsx://home") := by
  decide +kernel

theorem shows_start (s : BrowserSystem) : Shows (browserSetDefaultState s) .start where
  tabs := map_text_start.1.symm
  active := rfl
  address := map_text_start.2.2
  bookmarks := map_text_start.2.1.symm
  history := rfl

namespace Shows

variable {s : BrowserSystem} {m : Navigation}

theorem save (h : Shows s m) : Shows (browserStateSave s) m :=
  ⟨h.tabs, h.active, h.address, h.bookmarks, h.history⟩

theorem recordVisit (h : Shows s m) (a : Address) :
    Shows (browserRecordVisit s a.text) { m with visits := a :: m.visits } := by
  have hrecent := mostRecent_cons (by decide : browserHistoryMax ≠ 0) a.text
    (m.visits.map Address.text)
  rw [← h.history] at hrecent
  unfold browserRecordVisit
  by_cases hhead : s.browser.history.head? = some a.text
  · rw [if_pos (Or.inr hhead)]
    rw [if_pos hhead] at hrecent
    exact ⟨h.tabs, h.active, h.address, h.bookmarks, hrecent.symm⟩
  · rw [if_neg (by simp [hhead, a.ne_nil])]
    rw [if_neg hhead] at hrecent
    refine save ⟨h.tabs, h.active, h.address, h.bookmarks, ?_⟩
    rw [List.map_cons, hrecent, insertRow, a.copy]

theorem navigateTo (h : Shows s m) (hm : m.Valid) (a : Address) :
    Shows (browserNavigateTo s a.text) (m.navigateTo a) := by
  have hlt := hm.active_lt
  have hlength : s.browser.tabs.length = m.tabs.length := by rw [h.tabs, List.length_map]
  have hsync : Shows (browserSyncActiveTab { s with address := a.text })
      { m with tabs := m.tabs.set m.active a } := by
    unfold browserSyncActiveTab
    rw [if_neg (by simp only [hlength]; omega)]
    simp only [hlength, h.active, if_neg (not_le.mpr hlt)]
    refine save ⟨?_, rfl, ?_, h.bookmarks, h.history⟩
    · simp [h.tabs, a.copy, List.map_set]
    · simp [hlt]
  have haddress : (browserSyncActiveTab { s with address := a.text }).address = a.text := by
    have hshown := hsync.address
    rw [List.getElem?_set_self hlt] at hshown
    exact (Option.some.inj hshown).symm
  unfold browserNavigateTo
  rw [if_neg a.ne_nil, a.copy]
  dsimp only
  rw [haddress]
  exact hsync.recordVisit a

theorem openTab (h : Shows s m) (hm : m.Valid) (a : Address) :
    Shows (browserOpenTab s a.text) (m.step (.openTab a)) := by
  have hlength : s.browser.tabs.length = m.tabs.length := by rw [h.tabs, List.length_map]
  unfold browserOpenTab
  simp only [if_neg a.ne_nil, hlength, Navigation.step]
  split
  · have hopened : Shows { s with
        browser := { s.browser with
          tabs := s.browser.tabs ++ [a.text]
          activeTab := m.tabs.length }
        address := a.text }
        { m with tabs := m.tabs ++ [a], active := m.tabs.length } :=
      ⟨by simp [h.tabs], rfl, by simp, h.bookmarks, h.history⟩
    rw [a.copy]
    exact save (hopened.recordVisit a)
  · exact h.navigateTo hm a

theorem activateTab (h : Shows s m) (index : Nat) :
    Shows (browserActivateTab s index) (m.step (.activateTab index)) := by
  unfold browserActivateTab
  have hindex : s.browser.tabs[index]? = m.tabs[index]?.map Address.text := by
    rw [h.tabs, List.getElem?_map]
  rw [hindex]
  simp only [Navigation.step]
  cases htab : m.tabs[index]? with
  | none => exact h
  | some a =>
    have hactive : Shows { s with
        browser := { s.browser with activeTab := index }, address := a.text }
        { m with active := index } :=
      ⟨h.tabs, rfl, by simp [htab], h.bookmarks, h.history⟩
    simp only [Option.map_some]
    rw [a.copy]
    exact save (hactive.recordVisit a)

theorem toggleBookmark (h : Shows s m) (a : Address) :
    Shows (browserToggleBookmark s a.text).2 (m.step (.toggleBookmark a)) := by
  have hmem : a ∈ m.bookmarks ↔ a.text ∈ s.browser.bookmarks := by
    rw [h.bookmarks, List.mem_map_of_injective Address.text_injective]
  have hsome := List.erase_eq_eraseP' a.text s.browser.bookmarks
  rw [List.eraseP_eq_eraseIdx] at hsome
  unfold browserToggleBookmark
  rw [if_neg a.ne_nil]
  simp only [Navigation.step, hmem]
  cases hfind : s.browser.bookmarks.findIdx? (· == a.text) with
  | some i =>
    have hin : a.text ∈ s.browser.bookmarks := by
      obtain ⟨hlt, heq, -⟩ := List.findIdx?_eq_some_iff_getElem.mp hfind
      rw [← beq_iff_eq.mp heq]
      exact List.getElem_mem hlt
    rw [hfind] at hsome
    simp only [hin, if_true]
    refine save ⟨h.tabs, h.active, h.address, ?_, h.history⟩
    rw [List.map_erase Address.text_injective, ← h.bookmarks, hsome]
  | none =>
    have hnotin : a.text ∉ s.browser.bookmarks := by
      intro hin
      have hne := List.findIdx?_eq_none_iff.mp hfind a.text hin
      simp at hne
    simp only [hnotin, if_false]
    refine save ⟨h.tabs, h.active, h.address, ?_, h.history⟩
    rw [List.map_take, List.map_cons, ← h.bookmarks, insertRow, a.copy]

theorem step (h : Shows s m) (hm : m.Valid) (op : NavigationOp) :
    Shows (browserStep s op.toBrowserOp) (m.step op) := by
  cases op with
  | navigateTo address => exact h.navigateTo hm address
  | openTab address => exact h.openTab hm address
  | activateTab index => exact h.activateTab index
  | toggleBookmark address => exact h.toggleBookmark address
  | recordVisit address => exact h.recordVisit address

end Shows

theorem shows_run (s : BrowserSystem) (ops : List NavigationOp) :
    Shows (run browserStep (browserSetDefaultState s) (ops.map NavigationOp.toBrowserOp))
        (run Navigation.step .start ops) ∧ (run Navigation.step .start ops).Valid := by
  have hstep : ∀ (s : BrowserSystem) (m : Navigation) (op : NavigationOp), Shows s m ∧ m.Valid →
      Shows (browserStep s op.toBrowserOp) (Navigation.step m op) ∧ (Navigation.step m op).Valid :=
    fun s m op h => ⟨h.1.step h.2 op, h.2.step op⟩
  have hsim := run_simulation (R := fun (s : BrowserSystem) (m : Navigation) => Shows s m ∧ m.Valid)
    hstep ⟨shows_start s, Navigation.valid_start⟩ ops
  rwa [run, List.foldl_map]

/-! ## The law of navigation -/

/-- What a toggle of `address` does to the bookmarks: its membership flips, and no other address
enters or leaves, but for the oldest one when twelve were held and a thirteenth was added. -/
structure Toggled (before after : List Bytes) (address : Bytes) : Prop where
  flips : address ∈ after ↔ address ∉ before
  others : ∀ other, other ≠ address → (other ∈ after ↔ other ∈ before ∧
    ¬ (address ∉ before ∧ before.length = browserBookmarkMax ∧ before.getLast? = some other))

theorem toggled_erase {before : List Bytes} {address : Bytes} (hnodup : before.Nodup)
    (hin : address ∈ before) : Toggled before (before.erase address) address where
  flips := by simp [hin, hnodup.mem_erase_iff]
  others other hne := by simp [hnodup.mem_erase_iff, hne, hin]

theorem toggled_insert {before : List Bytes} {address : Bytes} (hnodup : before.Nodup)
    (hle : before.length ≤ browserBookmarkMax) (hnotin : address ∉ before) :
    Toggled before ((address :: before).take browserBookmarkMax) address := by
  rcases Nat.lt_or_eq_of_le hle with hlt | hfull
  · rw [List.take_of_length_le (by simpa using hlt)]
    refine ⟨by simp [hnotin], fun other hne => ?_⟩
    simp [hne, hlt.ne]
  · have htake : (address :: before).take browserBookmarkMax = address :: before.dropLast := by
      rw [List.dropLast_eq_take, hfull]
      rfl
    rw [htake]
    rcases List.eq_nil_or_concat before with rfl | ⟨front, oldest, rfl⟩
    · simp [browserBookmarkMax] at hfull
    · rw [List.concat_eq_append] at hnodup hnotin hfull ⊢
      have hfront : oldest ∉ front := by
        intro hin
        exact (List.nodup_append.mp hnodup).2.2 oldest hin oldest (by simp) rfl
      simp only [List.mem_append, List.mem_singleton, not_or] at hnotin
      refine ⟨by simp [hnotin.1, hnotin.2], fun other hne => ?_⟩
      have hlast : oldest = other → other ∉ front := fun heq => heq ▸ hfront
      simp only [List.dropLast_concat, List.mem_cons, hne, false_or, List.mem_append,
        hnotin.1, hnotin.2, or_self, not_false_eq_true, hfull, true_and,
        List.getLast?_concat, Option.some.injEq, List.not_mem_nil, or_false]
      constructor
      · exact fun hin => ⟨Or.inl hin, fun heq => hlast heq hin⟩
      · rintro ⟨hin | heq, hother⟩
        · exact hin
        · exact absurd heq.symm hother

/-- What a state of the browser shows of the visits so far. -/
structure Navigated (s : BrowserSystem) (m : Navigation) : Prop where
  tabs : s.browser.tabs = m.tabs.map Address.text
  tabs_pos : 1 ≤ s.browser.tabs.length
  tabs_le : s.browser.tabs.length ≤ browserTabMax
  active_lt : s.browser.activeTab < s.browser.tabs.length
  active : s.browser.tabs[s.browser.activeTab]? = some s.address
  bookmarks_nodup : s.browser.bookmarks.Nodup
  bookmarks_le : s.browser.bookmarks.length ≤ browserBookmarkMax
  toggle : ∀ address : Address, Toggled s.browser.bookmarks
    (browserToggleBookmark s address.text).2.browser.bookmarks address.text
  history : s.browser.history = mostRecent browserHistoryMax (m.visits.map Address.text)
  neighbours : s.browser.history.IsChain (· ≠ ·)

theorem Shows.navigated {s : BrowserSystem} {m : Navigation} (h : Shows s m) (hm : m.Valid) :
    Navigated s m := by
  have hlength : s.browser.tabs.length = m.tabs.length := by rw [h.tabs, List.length_map]
  have hnodup : s.browser.bookmarks.Nodup := by
    rw [h.bookmarks]
    exact hm.bookmarks_nodup.map Address.text_injective
  have hbookmarks : s.browser.bookmarks.length ≤ browserBookmarkMax := by
    rw [h.bookmarks, List.length_map]
    exact hm.bookmarks_le
  have hactive : s.browser.activeTab < s.browser.tabs.length := by
    rw [hlength, h.active]
    exact hm.active_lt
  refine ⟨h.tabs, by omega, hlength.trans_le hm.tabs_le, hactive, ?_, hnodup, hbookmarks, ?_,
    h.history, ?_⟩
  · rw [h.active, h.tabs, List.getElem?_map]
    exact h.address
  · intro address
    have hmem : address ∈ m.bookmarks ↔ address.text ∈ s.browser.bookmarks := by
      rw [h.bookmarks, List.mem_map_of_injective Address.text_injective]
    have htoggled := (h.toggleBookmark address).bookmarks
    rw [htoggled]
    simp only [Navigation.step]
    split
    · rename_i hin
      rw [List.map_erase Address.text_injective, ← h.bookmarks]
      exact toggled_erase hnodup (hmem.mp hin)
    · rename_i hnotin
      rw [List.map_take, List.map_cons, ← h.bookmarks]
      exact toggled_insert hnodup hbookmarks (fun hin => hnotin (hmem.mpr hin))
  · rw [h.history]
    exact isChain_mostRecent _ _

end SnsxOS.Arm64
