import NasdaqItch.Calls
import NasdaqItch.LastSalePrice
import NasdaqItch.Merge

/-!
# A caught broken trade

An execution `x` is withheld and later broken. It should leave no trace: the statistics should be
those of the stream without `x` and without the message that breaks it.

What `x` does leave behind is the last sale price of its slot, and the next execution in that slot
is judged against it. If it is judged differently, it is a candidate in one run and accepted in the
other, and the merge, which stores nothing, never brings it back (`broken_trade_leaves_trace`).
Where the program otherwise makes the same calls with and without `x` (`CalledAlike`), this is the
only trace: the statistics are the same exactly if the next execution is judged the same, or does
not show in them (`broken_trade_leaves_no_trace_iff`).

There are three other ways in which `x` can change a later call: its header and that of the broken
trade move the period counter, it lowers the shares of an order, and so it decides which execution
of that order reads an erased entry. `calledAlike` says when none of them does.
-/

namespace NasdaqItch

open UnorderedMap Runs VWAPManager

/-- The statistics of all slots of an issue. -/
def VWAPManager.stats (v : VWAPManager) (s : UInt16) :
    Option (Period → UInt64 × UInt32 × UInt32 × UInt32 × UInt64) :=
  (v.periodicVWAPStatsPerIssue.lookup s).map fun slots k => (slots k).stats

theorem World.stats_eq_iff {w w' : World} {s : UInt16}
    (h : (w.slots s).isSome = (w'.slots s).isSome) :
    w.vwapManager.stats s = w'.vwapManager.stats s ↔
      ∀ k, ((w.slots s).getD PeriodicStats.initial k).stats =
        ((w'.slots s).getD PeriodicStats.initial k).stats := by
  show (w.slots s).map _ = (w'.slots s).map _ ↔ _
  cases hslots : w.slots s with
  | none =>
      cases hslots' : w'.slots s with
      | none => simp
      | some slots' => simp [hslots, hslots'] at h
  | some slots =>
      cases hslots' : w'.slots s with
      | none => simp [hslots, hslots'] at h
      | some slots' => simp [funext_iff]

/-! ## The book without `x` -/

/-- Two books with the same entries, but for the shares (or the presence) of the orders in
`orders`. -/
structure BookTwin (orders : List UInt64) (book book' : OrderBook) : Prop where
  other : ∀ n, n ∉ orders → book.lookup n = book'.lookup n
  price : ∀ n data data', book.lookup n = some data → book'.lookup n = some data' →
    data.price = data'.price

section Book

variable {b : Build} {close : UInt64} {orders : List UInt64} {book book' book₁ book₁' : OrderBook}
  {m : Message} {act act' : Action} {n : UInt64} {data data' : ActiveOrderData}
  {operation : BookOperation} {price price' : UInt32}

theorem BookTwin.emplace (h : BookTwin orders book book') (hn : book.lookup n = book'.lookup n)
    (data : ActiveOrderData) :
    BookTwin orders (emplace book n data) (emplace book' n data) := by
  have hsame : (UnorderedMap.emplace book n data).lookup n =
      (UnorderedMap.emplace book' n data).lookup n := by
    rw [lookup_emplace_if, lookup_emplace_if, hn]
  refine ⟨fun k hk => ?_, fun k d d' hd hd' => ?_⟩
  · rw [lookup_emplace_if, lookup_emplace_if, hn, h.other k hk]
  · by_cases hkn : k = n
    · subst hkn
      rw [hsame, hd', Option.some.injEq] at hd
      rw [hd]
    · rw [lookup_emplace_if, if_neg hkn] at hd hd'
      exact h.price k d d' hd hd'

theorem BookTwin.erase (h : BookTwin orders book book') (n : UInt64) :
    BookTwin orders (book.erase n) (book'.erase n) := by
  refine ⟨fun k hk => ?_, fun k d d' hd hd' => ?_⟩
  · rw [lookup_erase_if, lookup_erase_if, h.other k hk]
  · rw [lookup_erase_if] at hd hd'
    split_ifs at hd hd'
    exact h.price k d d' hd hd'

theorem BookTwin.insert (h : BookTwin orders book book') (hd : book.lookup n = some data)
    (hd' : book'.lookup n = some data') (shares : UInt32) :
    BookTwin orders (book.insert n { data with numShares := data.numShares - shares })
      (book'.insert n { data' with numShares := data'.numShares - shares }) := by
  refine ⟨fun k hk => ?_, fun k e e' he he' => ?_⟩
  · rw [lookup_insert_if, lookup_insert_if, h.other k hk]
    split_ifs with hkn
    · rw [← hkn, h.other k hk, hkn, hd', Option.some.injEq] at hd
      rw [hd]
    · rfl
  · rw [lookup_insert_if] at he he'
    split_ifs at he he' with hkn
    · rw [← Option.some.inj he, ← Option.some.inj he']
      exact h.price n data data' hd hd'
    · exact h.price k e e' he he'

theorem BookTwin.afterExecution (h : BookTwin orders book book') (hd : book.lookup n = some data)
    (hd' : book'.lookup n = some data') (executed : UInt32) :
    BookTwin orders (book.afterExecution n data executed)
      (book'.afterExecution n data' executed) := by
  refine ⟨fun k hk => ?_, fun k e e' he he' => ?_⟩
  · rw [OrderBook.lookup_afterExecution, OrderBook.lookup_afterExecution, h.other k hk]
    by_cases hkn : k = n
    · rw [← hkn, h.other k hk, hkn, hd', Option.some.injEq] at hd
      rw [hd]
    · rw [if_neg hkn, if_neg hkn]
  · rw [OrderBook.lookup_afterExecution] at he he'
    split_ifs at he he' with hkn
    · rw [← Option.some.inj he, ← Option.some.inj he']
      exact h.price n data data' hd hd'
    · exact h.price k e e' he he'

/-- Adding an order finds the same in both books: the asserts see to it, or the order is none of
those in `orders`. -/
theorem BookTwin.lookup_added (h : BookTwin orders book book')
    (hnew : b.asserts = true → n ∉ book) (hnew' : b.asserts = true → n ∉ book')
    (hn : b.asserts = false → n ∉ orders) : book.lookup n = book'.lookup n := by
  cases hb : b.asserts with
  | true => rw [Finmap.lookup_eq_none.2 (hnew hb), Finmap.lookup_eq_none.2 (hnew' hb)]
  | false => exact h.other n (hn hb)

/-- The same operation on two such books finds the same price, and leaves two such books. Only the
orders in `orders` may be filled in one of them and not in the other. -/
theorem BookTwin.performs (h : BookTwin orders book book')
    (hp : operation.Performs b book book₁ price) (hp' : operation.Performs b book' book₁' price')
    (hread : (∃ n ∈ operation.references, n ∈ orders) → ∀ data, b.readErased data = data.price)
    (hadd : b.asserts = false → ∀ n ∈ operation.addedReferences, n ∉ orders) :
    price = price' ∧ BookTwin orders book₁ book₁' := by
  cases hp with
  | keep =>
      cases hp'
      exact ⟨rfl, h⟩
  | add hnew =>
      cases hp' with
      | add hnew' =>
          have hsame := h.lookup_added hnew hnew' fun hb => hadd hb _ List.mem_cons_self
          exact ⟨rfl, h.emplace hsame _⟩
  | cancel hdata =>
      cases hp' with
      | cancel hdata' => exact ⟨rfl, h.insert hdata hdata' _⟩
  | delete =>
      cases hp'
      exact ⟨rfl, h.erase _⟩
  | @execute n shares data hdata =>
      cases hp' with
      | @execute _ _ data' hdata' =>
          refine ⟨?_, h.afterExecution hdata hdata' _⟩
          by_cases hn : n ∈ orders
          · have hread := hread ⟨n, List.mem_cons_self, hn⟩
            simp only [hread, ite_self]
            exact h.price _ _ _ hdata hdata'
          · rw [h.other n hn, hdata', Option.some.injEq] at hdata
            rw [hdata]
  | replace hnew =>
      cases hp' with
      | replace hnew' =>
          have hsame := (h.erase _).lookup_added (fun hb => (hnew hb).2) (fun hb => (hnew' hb).2)
            fun hb => hadd hb _ List.mem_cons_self
          exact ⟨rfl, (h.erase _).emplace hsame _⟩

theorem bookStep_twin (h : BookTwin orders book book')
    (hb : bookStep b close book m = .ok (book₁, act))
    (hb' : bookStep b close book' m = .ok (book₁', act'))
    (hread : (∃ n ∈ m.orderReferences, n ∈ orders) → ∀ data, b.readErased data = data.price)
    (hadd : b.asserts = false → ∀ n ∈ m.addedReferences, n ∉ orders) :
    act = act' ∧ BookTwin orders book₁ book₁' := by
  obtain ⟨price, hperforms, rfl⟩ := bookStep_performs hb
  obtain ⟨price', hperforms', rfl⟩ := bookStep_performs hb'
  obtain ⟨rfl, htwin⟩ := h.performs hperforms hperforms'
    (fun ⟨n, href, hn⟩ => hread ⟨n, Message.mem_references href, hn⟩)
    fun hb n href => hadd hb n (Message.mem_addedReferences href)
  exact ⟨rfl, htwin⟩

/-- An execution only lowers the shares of the order it names. -/
theorem bookStep_execution {e : Execution}
    (h : bookStep b close book m = .ok (book₁, .execution e)) :
    BookTwin m.orderReferences book₁ book := by
  refine ⟨fun n hn => bookStep_frame h hn, fun n d d' hd hd' => ?_⟩
  obtain ⟨price, hperforms, hact⟩ := bookStep_performs h
  rcases m.bookOperation_of_execution hact.symm with hkeep | ⟨ref, shares, hexecute⟩
  · rw [hkeep] at hperforms
    cases hperforms
    rw [hd', Option.some.injEq] at hd
    rw [hd]
  · rw [hexecute] at hperforms
    cases hperforms with
    | execute hdata =>
        rw [OrderBook.lookup_afterExecution] at hd
        split_ifs at hd with hn
        · rw [hn, hdata, Option.some.injEq] at hd'
          rw [← Option.some.inj hd, ← hd']
        · rw [hd', Option.some.injEq] at hd
          rw [hd]

end Book

/-! ## Two runs over the same messages -/

/-- The period counter after some more headers. -/
def counterFrom (currentPeriod : UInt8) (stream : List Message) : UInt8 :=
  stream.foldl (fun p m => processHeaderTimestamp p m.timestamp) currentPeriod

/-- The counters of two runs agree whenever an execution, trade or cross comes in. -/
def sameCounters : UInt8 → UInt8 → List Message → Bool
  | _, _, [] => true
  | p, p', m :: stream =>
      let q := processHeaderTimestamp p m.timestamp
      let q' := processHeaderTimestamp p' m.timestamp
      (m.matchNumber.isNone || q = q') && sameCounters q q' stream

/-- Two states that make the same call of the next message, if their counters agree. -/
structure Twin (orders : List UInt64) (w w' : World) : Prop where
  close : w.marketCloseTimestamp = w'.marketCloseTimestamp
  book : BookTwin orders w.orderBook w'.orderBook
  issues : ∀ s, (w.slots s).isSome = (w'.slots s).isSome

section Twins

variable {b : Build} {orders : List UInt64} {w w' w₁ w₁' t t' : World} {m : Message}
  {stream : List Message}

theorem run_counter (h : Run (Steps (consume b)) w stream t) :
    t.currentPeriod = counterFrom w.currentPeriod stream := by
  induction h with
  | nil => rfl
  | cons hstep _ ih =>
      obtain ⟨act, -, -, hperiod, -⟩ := consume_eq_ok.1 hstep
      rw [ih, hperiod]
      rfl

/-- **One message on both sides**: the same call, and twins again. -/
theorem Twin.step (h : Twin orders w w') (hst : consume b w m = .ok w₁)
    (hst' : consume b w' m = .ok w₁')
    (hread : (∃ n ∈ m.orderReferences, n ∈ orders) → ∀ data, b.readErased data = data.price)
    (hadd : b.asserts = false → ∀ n ∈ m.addedReferences, n ∉ orders)
    (hcounter : m.matchNumber.isSome → w₁.currentPeriod = w₁'.currentPeriod) :
    callBy b w m = callBy b w' m ∧ Twin orders w₁ w₁' := by
  obtain ⟨act, hbook, -, hperiod, hclose⟩ := consume_eq_ok.1 hst
  obtain ⟨act', hbook', -, hperiod', hclose'⟩ := consume_eq_ok.1 hst'
  have hbook₀ := hbook
  rw [h.close] at hbook₀
  obtain ⟨rfl, hbooks⟩ := bookStep_twin h.book hbook₀ hbook' hread hadd
  refine ⟨?_, ⟨by rw [hclose, hclose', h.close], hbooks, fun s => ?_⟩⟩
  · cases act with
    | execution e =>
        obtain ⟨-, -, htraded⟩ := (bookStep_asks hbook).execution_eq
        have hnumber : m.matchNumber.isSome := by
          rw [(Message.traded_eq_some htraded).2.2]
          rfl
        rw [callBy_execution hbook, callBy_execution hbook', ← hperiod, ← hperiod',
          hcounter hnumber, h.issues]
    | _ => rw [callBy_eq_nil hbook nofun, callBy_eq_nil hbook' nofun]
  · rw [isSome_slots_step hst, isSome_slots_step hst', h.issues]

/-- **A run on both sides.** -/
theorem Twin.run (h : Twin orders w w') (hl : Run (Steps (consume b)) w stream t)
    (hr : Run (Steps (consume b)) w' stream t')
    (hread : (∃ m ∈ stream, ∃ n ∈ m.orderReferences, n ∈ orders) →
      ∀ data, b.readErased data = data.price)
    (hadd : b.asserts = false → ∀ m ∈ stream, ∀ n ∈ m.addedReferences, n ∉ orders)
    (hcounter : sameCounters w.currentPeriod w'.currentPeriod stream = true) :
    calls b w stream = calls b w' stream ∧ Twin orders t t' := by
  induction hl generalizing w' with
  | nil w =>
      rw [run_nil_iff] at hr
      exact ⟨rfl, hr ▸ h⟩
  | @cons w w₁ t m stream hst hrun ih =>
      obtain ⟨w₁', hst', hrun'⟩ := run_cons_iff.1 hr
      obtain ⟨-, -, -, hperiod, -⟩ := consume_eq_ok.1 hst
      obtain ⟨-, -, -, hperiod', -⟩ := consume_eq_ok.1 hst'
      simp only [sameCounters, ← hperiod, ← hperiod', Bool.and_eq_true, Bool.or_eq_true,
        decide_eq_true_eq] at hcounter
      obtain ⟨hnow, hlater⟩ := hcounter
      obtain ⟨hcall, htwin⟩ := h.step hst hst'
        (fun href => hread ⟨m, List.mem_cons_self, href⟩)
        (fun hb => hadd hb m List.mem_cons_self)
        (fun hm => hnow.resolve_left (by simp [Option.isSome_iff_ne_none.1 hm]))
      obtain ⟨hrest, htwin'⟩ := ih htwin hrun'
        (fun ⟨m', hm', href⟩ => hread ⟨m', List.mem_cons_of_mem _ hm', href⟩)
        (fun hb m' hm' => hadd hb m' (List.mem_cons_of_mem _ hm')) hlater
      refine ⟨?_, htwin'⟩
      have hleft : calls b w (m :: stream) = callBy b w m ++ calls b w₁ stream := collect_cons hst
      have hright : calls b w' (m :: stream) = callBy b w' m ++ calls b w₁' stream :=
        collect_cons hst'
      rw [hleft, hright, hcall, hrest]

end Twins

/-! ## The caught trade -/

/-- A stream in which an execution `x` is withheld, and a later message `br` breaks it. -/
structure CaughtTrade (b : Build) where
  before : List Message
  x : Message
  mid : List Message
  br : Message
  rest : List Message
  /-- The state that `x` meets. -/
  world : World
  /-- What `x` asks for, and the book it leaves. -/
  execution : Execution
  book : OrderBook
  /-- The slots of its issue, and the one that `x` is filed into. -/
  slots : PeriodicStats
  slot : Period
  world_eq : processAll b World.initial before = .ok world
  asks : bookStep b world.marketCloseTimestamp world.orderBook x = .ok (book, .execution execution)
  slots_eq : world.slots execution.stockLocate = some slots
  slot_eq : (processHeaderTimestamp world.currentPeriod x.timestamp).toNat = slot
  withheld : (slots slot).withholds execution = true
  broken : br.body = .brokenTrade ⟨execution.matchNumber⟩

namespace CaughtTrade

variable {b : Build} (c : CaughtTrade b)

/-- The whole stream. -/
def stream : List Message := c.before ++ c.x :: c.mid ++ c.br :: c.rest

/-- The stream without `x` and the message that breaks it. -/
def without : List Message := c.before ++ c.mid ++ c.rest

/-- The call that `x` makes. -/
def call : Call := (processHeaderTimestamp c.world.currentPeriod c.x.timestamp, c.execution)

/-- The calls that follow, as the stream without `x` makes them. -/
def later : List Call := calls b c.world (c.mid ++ c.rest)

/-- With `x` the program makes the same calls, after that of `x`: the same executions are filed
into the same slots. -/
def CalledAlike : Prop :=
  calls b c.world (c.x :: c.mid ++ c.br :: c.rest) = c.call :: c.later

/-- The last sale price that `x` left in its slot is forgotten: the next execution filed there, if
there is one, is judged the same as without `x`, or does not show. -/
def Forgotten : Prop :=
  (c.slots c.slot).Forgets c.execution.price (filedInto c.execution.stockLocate c.slot c.later)

instance : Decidable c.CalledAlike := inferInstanceAs (Decidable (_ = _))

instance : Decidable c.Forgotten :=
  inferInstanceAs (Decidable ((c.slots c.slot).Forgets _ _))

variable {c} {w w' w₁ : World}

/-! ### The slots of the two streams -/

theorem run_stream (hrun : processAll b World.initial c.stream = .ok w) :
    Run (Steps (consume b)) c.world (c.x :: c.mid ++ c.br :: c.rest) w := by
  rw [stream, List.append_assoc] at hrun
  obtain ⟨_, hbefore, hrest⟩ := run_append_iff.1 (processAll_eq_ok.1 hrun)
  cases hbefore.deterministic (processAll_eq_ok.1 c.world_eq)
  exact hrest

theorem run_without (hrun : processAll b World.initial c.without = .ok w) :
    Run (Steps (consume b)) c.world (c.mid ++ c.rest) w := by
  rw [without, List.append_assoc] at hrun
  obtain ⟨_, hbefore, hrest⟩ := run_append_iff.1 (processAll_eq_ok.1 hrun)
  cases hbefore.deterministic (processAll_eq_ok.1 c.world_eq)
  exact hrest

theorem opens_x (c : CaughtTrade b) (s : UInt16) : c.x.opens s = false := by
  have hopens := (bookStep_asks c.asks).opens_iff (s := s)
  simpa using hopens

theorem opens_br (c : CaughtTrade b) (s : UInt16) : c.br.opens s = false := by
  rw [Message.opens, c.broken]

theorem isSome_slots (hrun : processAll b World.initial c.stream = .ok w)
    (hrun' : processAll b World.initial c.without = .ok w') (s : UInt16) :
    (w.slots s).isSome = (w'.slots s).isSome := by
  rw [isSome_slots_run (run_stream hrun), isSome_slots_run (run_without hrun')]
  simp [c.opens_x, c.opens_br]

theorem filedInto_call (c : CaughtTrade b) (s : UInt16) (k : Period) :
    filedInto s k [c.call] =
      if c.execution.stockLocate = s ∧ c.slot = k then [c.execution] else [] := by
  have hslot : (processHeaderTimestamp c.world.currentPeriod c.x.timestamp).toNat = k ↔
      c.slot = k := by
    rw [c.slot_eq, Fin.ext_iff]
  simp only [filedInto, call, List.filter_cons, List.filter_nil, hslot, decide_eq_true_eq]
  split_ifs <;> rfl

theorem slots_stream (hrun : processAll b World.initial c.stream = .ok w) (hcalls : c.CalledAlike)
    (s : UInt16) (k : Period) :
    (w.slots s).getD PeriodicStats.initial k =
      (filedInto s k c.later).foldl VWAPFormula.file
        ((filedInto s k [c.call]).foldl VWAPFormula.file
          ((c.world.slots s).getD PeriodicStats.initial k)) := by
  rw [slots_run (run_stream hrun), hcalls, ← List.singleton_append, filedInto_append,
    List.foldl_append]

/-- **When the statistics are the same** at the end of the two streams. -/
theorem stats_eq_iff (hrun : processAll b World.initial c.stream = .ok w)
    (hrun' : processAll b World.initial c.without = .ok w') (hcalls : c.CalledAlike) :
    (∀ s, w.vwapManager.stats s = w'.vwapManager.stats s) ↔ c.Forgotten := by
  have hfile : (c.slots c.slot).file c.execution =
      { c.slots c.slot with lastSalePrice := c.execution.price } := by
    rw [VWAPFormula.file, c.withheld, if_pos rfl]
  have hbefore : (c.world.slots c.execution.stockLocate).getD PeriodicStats.initial c.slot =
      c.slots c.slot := by
    rw [c.slots_eq]
    rfl
  simp only [World.stats_eq_iff (isSome_slots hrun hrun' _), slots_stream hrun hcalls,
    slots_run (run_without hrun'), filedInto_call]
  rw [Forgotten, ← VWAPFormula.stats_lastSalePrice_iff, ← hfile, ← hbefore]
  constructor
  · intro h
    have hself := h c.execution.stockLocate c.slot
    rw [if_pos ⟨rfl, rfl⟩] at hself
    exact hself
  · intro h s k
    by_cases hself : c.execution.stockLocate = s ∧ c.slot = k
    · rw [if_pos hself]
      obtain ⟨rfl, rfl⟩ := hself
      exact h
    · rw [if_neg hself]
      rfl

/-! ### When the calls are the same -/

/-- Without the headers of `x` and `br` every later execution meets the same counter. -/
def SameCounters : Prop :=
  sameCounters (counterFrom 0 (c.before ++ [c.x])) (counterFrom 0 c.before) c.mid ∧
    sameCounters (counterFrom 0 (c.before ++ c.x :: c.mid ++ [c.br]))
      (counterFrom 0 (c.before ++ c.mid)) c.rest

/-- No later message adds an order that `x` names; asserts would see to it. -/
def NotAddedAgain : Prop :=
  b.asserts = false → ∀ m ∈ c.mid ++ c.rest, ∀ n ∈ m.addedReferences, n ∉ c.x.orderReferences

/-- If a later message names an order that `x` names, an erased entry keeps its price. -/
def ReadsPrice : Prop :=
  (∃ m ∈ c.mid ++ c.rest, ∃ n ∈ m.orderReferences, n ∈ c.x.orderReferences) →
    ∀ data, b.readErased data = data.price

theorem closeAfter_of_matchNumber {close n : UInt64} {m : Message} (h : m.matchNumber = some n) :
    closeAfter close m = close := by
  obtain ⟨header, body⟩ := m
  cases body with
  | systemEvent e => exact absurd h nofun
  | _ => rfl

theorem twin_x (hx : consume b c.world c.x = .ok w₁) :
    Twin c.x.orderReferences w₁ c.world := by
  obtain ⟨act, hbook, -, -, hclose⟩ := consume_eq_ok.1 hx
  obtain ⟨hbook', rfl⟩ := Prod.mk.inj (Except.ok.inj (c.asks.symm.trans hbook))
  obtain ⟨-, -, htraded⟩ := (bookStep_asks hbook).execution_eq
  refine ⟨?_, bookStep_execution hbook, fun s => ?_⟩
  · rw [hclose, closeAfter_of_matchNumber (Message.traded_eq_some htraded).2.2]
  · rw [isSome_slots_step hx, c.opens_x, Bool.or_false]

theorem bookStep_broken (c : CaughtTrade b) (close : UInt64) (book : OrderBook) :
    bookStep b close book c.br = .ok (book, .brokenTrade c.execution.matchNumber) := by
  rw [bookStep, c.broken]

/-- The message that breaks `x` is one step of the first run only. -/
theorem twin_br {orders : List UInt64} (h : Twin orders w w') (hbr : consume b w c.br = .ok w₁) :
    Twin orders w₁ w' := by
  obtain ⟨act, hbook, -, -, hclose⟩ := consume_eq_ok.1 hbr
  obtain ⟨hbook', rfl⟩ := Prod.mk.inj (Except.ok.inj ((c.bookStep_broken _ _).symm.trans hbook))
  refine ⟨?_, hbook' ▸ h.book, fun s => ?_⟩
  · rw [hclose, closeAfter, c.broken, h.close]
  · rw [isSome_slots_step hbr, c.opens_br, Bool.or_false, h.issues]

/-- **When the program makes the same calls** with and without `x`: the counters are the same, no
order of `x` is added again, and none is read after it was erased. -/
theorem calledAlike (hrun : processAll b World.initial c.stream = .ok w)
    (hrun' : processAll b World.initial c.without = .ok w') (hcounter : c.SameCounters)
    (hadd : c.NotAddedAgain) (hread : c.ReadsPrice) : c.CalledAlike := by
  have hbefore := processAll_eq_ok.1 c.world_eq
  -- The first run is in states `w₁`, `w₂`, `w₃` after `x`, before `br` and after `br`.
  obtain ⟨w₂, hxMid, hbrRest⟩ := run_append_iff.1 (run_stream hrun)
  obtain ⟨w₁, hx, hmid⟩ := run_cons_iff.1 hxMid
  obtain ⟨w₃, hbr, hrest⟩ := run_cons_iff.1 hbrRest
  -- The second one is in `w₂'` where the first one is between `w₂` and `w₃`.
  obtain ⟨w₂', hmid', hrest'⟩ := run_append_iff.1 (run_without hrun')
  have hcounter₁ : sameCounters w₁.currentPeriod c.world.currentPeriod c.mid = true := by
    rw [run_counter hbefore, run_counter (run_concat_iff.2 ⟨_, hbefore, hx⟩)]
    exact hcounter.1
  have hcounter₃ : sameCounters w₃.currentPeriod w₂'.currentPeriod c.rest = true := by
    rw [run_counter (run_append_iff.2 ⟨_, hbefore, hmid'⟩),
      run_counter (run_concat_iff.2 ⟨_, run_append_iff.2 ⟨_, hbefore, hxMid⟩, hbr⟩)]
    exact hcounter.2
  obtain ⟨hcalls₁, htwin₂⟩ := (twin_x hx).run hmid hmid'
    (fun ⟨m, hm, href⟩ => hread ⟨m, List.mem_append_left _ hm, href⟩)
    (fun hb m hm => hadd hb m (List.mem_append_left _ hm)) hcounter₁
  obtain ⟨hcalls₃, -⟩ := (twin_br htwin₂ hbr).run hrest hrest'
    (fun ⟨m, hm, href⟩ => hread ⟨m, List.mem_append_right _ hm, href⟩)
    (fun hb m hm => hadd hb m (List.mem_append_right _ hm)) hcounter₃
  have hself : callBy b c.world c.x = [c.call] := by
    rw [callBy_execution c.asks, c.slots_eq]
    rfl
  have hbroken : callBy b w₂ c.br = [] := callBy_eq_nil (c.bookStep_broken _ _) nofun
  unfold CalledAlike later calls
  rw [List.cons_append, collect_cons hx, collect_append hmid, collect_cons hbr,
    collect_append hmid', hself, hbroken]
  exact congrArg (_ :: ·) (congrArg₂ (· ++ ·) hcalls₁ hcalls₃)

end CaughtTrade

/-! ## No trace -/

/-- **When a caught broken trade leaves no trace.** If the program makes the same calls without
`x`, then after the merge every slot of every issue has the statistics that it has without `x` and
the message that breaks it exactly if the last sale price that `x` left is forgotten. -/
theorem broken_trade_leaves_no_trace_iff {b : Build} (c : CaughtTrade b) {w w' : World}
    (hrun : processAll b World.initial c.stream = .ok w)
    (hrun' : processAll b World.initial c.without = .ok w') (hcalls : c.CalledAlike)
    (order : IterationOrder w.vwapManager.brokenTradeCandidates)
    (order' : IterationOrder w'.vwapManager.brokenTradeCandidates) :
    (∃ v v',
      mergeRemainingBrokenTradeCandidatesIntoVWAPStatsPerPeriod b w.vwapManager order = .ok v ∧
      mergeRemainingBrokenTradeCandidatesIntoVWAPStatsPerPeriod b w'.vwapManager order' = .ok v' ∧
      ∀ s, v.stats s = v'.stats s) ↔ c.Forgotten := by
  have hmaps : w.vwapManager.Consistent := (Reachable.consistent ⟨_, hrun⟩).maps
  have hmaps' : w'.vwapManager.Consistent := (Reachable.consistent ⟨_, hrun'⟩).maps
  rw [merge_eq hmaps order, merge_eq hmaps' order', ← CaughtTrade.stats_eq_iff hrun hrun' hcalls]
  constructor
  · rintro ⟨v, v', hv, hv', hstats⟩
    cases hv
    cases hv'
    exact hstats
  · exact fun hstats => ⟨_, _, rfl, rfl, hstats⟩

/-- Issue 1 starts trading, and trades at 100. -/
def morning : List Message := [startsTrading 1 (clock 9 0), trade 1 (clock 10 0) 100 100 1]

/-- A trade at `price` is withheld; there is one more at `price'`; the first of the two is
broken. -/
def brokenAt (price price' : UInt32) (h : withheldAgainst 100 price = true) :
    CaughtTrade .release where
  before := morning
  x := trade 1 (clock 10 1) price 10 2
  mid := [trade 1 (clock 10 2) price' 10 3]
  br := breaksTrade 1 (clock 10 3) 2
  rest := []
  world := World.after .release morning
  execution := ⟨1, price, 10, clock 10 1, 2⟩
  book := ∅
  slots := Function.update PeriodicStats.initial 1 ⟨100, uint32Max, 100, clock 10 0, 100, 100⟩
  slot := 1
  world_eq := processAll_after morning (by decide)
  asks := rfl
  slots_eq := by dsimp only; decide
  slot_eq := by dsimp only [trade, Message.timestamp]; decide
  withheld := h
  broken := rfl

/-- A trade that is accepted with and without the broken one. The broken trade moves the counter to
the last period, where a trade of another issue comes in that never started trading. -/
def brokenLate : CaughtTrade .release :=
  { brokenAt 111 105 (by decide) with
    br := breaksTrade 1 (clock 15 30) 2
    rest := [trade 2 (clock 16 1) 50 10 4]
    broken := rfl }

theorem broken_trade_leaves_no_trace_late :
    let w := (World.after .release brokenLate.stream).vwapManager
    let w' := (World.after .release brokenLate.without).vwapManager
    ∃ v v', mergeRemainingBrokenTradeCandidatesIntoVWAPStatsPerPeriod .release w (.any _) = .ok v ∧
      mergeRemainingBrokenTradeCandidatesIntoVWAPStatsPerPeriod .release w' (.any _) = .ok v' ∧
      ∀ s, v.stats s = v'.stats s :=
  (broken_trade_leaves_no_trace_iff brokenLate (processAll_after _ (by decide))
    (processAll_after _ (by decide)) (by decide) _ _).2 (by decide)

/-- The issue has traded in the last period, too, and after the broken trade a trade far from both
last sale prices is stamped 16:01. -/
def brokenElsewhere : CaughtTrade .release where
  before := [startsTrading 1 (clock 9 0), trade 1 (clock 15 0) 100 10 4,
    trade 1 (clock 10 0) 100 100 1]
  x := trade 1 (clock 10 1) 111 10 2
  mid := []
  br := breaksTrade 1 (clock 15 30) 2
  rest := [trade 1 (clock 16 1) 200 10 3]
  world := World.after .release [startsTrading 1 (clock 9 0), trade 1 (clock 15 0) 100 10 4,
    trade 1 (clock 10 0) 100 100 1]
  execution := ⟨1, 111, 10, clock 10 1, 2⟩
  book := ∅
  slots := Function.update (Function.update PeriodicStats.initial 6
    ⟨100, uint32Max, 100, clock 15 0, 10, 100⟩) 1 ⟨100, uint32Max, 100, clock 10 0, 100, 100⟩
  slot := 1
  world_eq := processAll_after _ (by decide)
  asks := rfl
  slots_eq := by dsimp only; decide
  slot_eq := by dsimp only [trade, Message.timestamp]; decide
  withheld := by decide
  broken := rfl

/-- Other calls need not leave a trace: this trade goes to another period, and is withheld in
both. -/
example : ¬ brokenElsewhere.CalledAlike ∧
    (World.after .release brokenElsewhere.stream).vwapManager.stats 1 =
      (World.after .release brokenElsewhere.without).vwapManager.stats 1 := by
  decide

/-- **A trace.** The ten shares of a trade at 100 that follows the broken one are lost: it is
withheld because its price is far from that of the broken trade. -/
theorem broken_trade_leaves_trace :
    let c := brokenAt 200 100 (by decide)
    let w := (World.after .release c.stream).vwapManager
    let w' := (World.after .release c.without).vwapManager
    (c.stream.filterMap Message.matchNumber).Nodup ∧
      processAll .release World.initial c.stream = .ok (World.after .release c.stream) ∧
      processAll .release World.initial c.without = .ok (World.after .release c.without) ∧
      ∀ order order' v v',
        mergeRemainingBrokenTradeCandidatesIntoVWAPStatsPerPeriod .release w order = .ok v →
        mergeRemainingBrokenTradeCandidatesIntoVWAPStatsPerPeriod .release w' order' = .ok v' →
        v.stats 1 ≠ v'.stats 1 := by
  have hrun := processAll_after (b := .release) (brokenAt 200 100 (by decide)).stream (by decide)
  have hrun' := processAll_after (b := .release) (brokenAt 200 100 (by decide)).without (by decide)
  refine ⟨by decide, hrun, hrun', fun order order' v v' hv hv' => ?_⟩
  rw [merge_eq (Reachable.consistent ⟨_, hrun⟩).maps] at hv
  rw [merge_eq (Reachable.consistent ⟨_, hrun'⟩).maps] at hv'
  cases hv
  cases hv'
  decide

end NasdaqItch
