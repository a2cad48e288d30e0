import PhpRuntime.Output.Conservation

/-!
# Runs of the output layer

Between the operations of a script no handler runs and the active handler is the top of the stack.
-/

set_option autoImplicit false

namespace PhpRuntime.Output

open PhpRuntime.Lib HandlerStatus

/-- The layer between the operations of a script. -/
structure Idle (g : Globals) : Prop where
  wellFormed : WellFormed g
  running : g.running = none
  active : g.active = g.handlers.getLast?
  balanced : Balanced g g.handlers [] []

section Operations

variable {req : Request} {call : List UInt8 → ℕ → Globals → Globals}
variable {g g' : Globals} {h : ℕ} {below : List ℕ}

theorem Idle.of_settled (hi : Idle g) (hs : Settled g g') : Idle g' where
  wellFormed := hs.wellFormed
  running := hs.frame.running.trans hi.running
  active := by
    rw [hs.frame.active, hs.frame.handlers]
    exact hi.active
  balanced := by
    rw [hs.frame.handlers]
    exact hs.balanced

theorem Idle.handlers_of_active (hi : Idle g) (ha : g.active = some h) :
    ∃ below, g.handlers = below ++ [h] := by
  rw [hi.active] at ha
  exact List.getLast?_eq_some_iff.mp ha

theorem WellFormed.pop {active : Option ℕ} (hg : WellFormed g) (hs : g.handlers = below ++ [h])
    (ha : below ≠ [] → active.isSome = true) :
    WellFormed { g with handlers := below, active := active } where
  activated := hg.activated
  active := ha
  nodup := by
    have hn := hg.nodup
    rw [hs] at hn
    exact hn.of_append_left
  fresh i hi := hg.fresh i (by rw [hs]; exact List.mem_append_left _ hi)
  level b i a hb := by
    apply hg.level b i (a ++ [h])
    have hb' : below = b ++ i :: a := hb
    rw [hs, hb', List.append_assoc, List.cons_append]
  empty i hi := hg.empty i (by rw [hs]; exact List.mem_append_left _ hi)
  fits i hi := hg.fits i (by rw [hs]; exact List.mem_append_left _ hi)

theorem WellFormed.push {active : Option ℕ} {next : ℕ} (hg : WellFormed g) (hh : h ∉ g.handlers)
    (ha : active.isSome = true) (hn : g.next ≤ next) (hlt : h < next)
    (hl : (g.handler h).level = g.handlers.length)
    (he : (g.handler h).flags.disabled = true → (g.handler h).buffer.data = [])
    (hf : (g.handler h).buffer.used ≤ (g.handler h).buffer.size) :
    WellFormed { g with handlers := g.handlers ++ [h], active := active, next := next } where
  activated := hg.activated
  active _ := ha
  nodup := by
    apply List.nodup_append.mpr
    refine ⟨hg.nodup, List.nodup_singleton h, ?_⟩
    intro i hi j hj e
    rw [List.mem_singleton.mp hj] at e
    exact hh (e ▸ hi)
  fresh i hi := by
    obtain hi | hi := List.mem_append.mp hi
    · exact Nat.lt_of_lt_of_le (hg.fresh i hi) hn
    · rw [List.mem_singleton.mp hi]
      exact hlt
  level b i a hb := by
    have hb' : g.handlers ++ [h] = b ++ i :: a := hb
    obtain rfl | ⟨a', j, rfl⟩ := List.eq_nil_or_concat a
    · obtain ⟨hb1, hb2⟩ := List.append_inj' hb' rfl
      rw [← List.singleton_inj.mp hb2, ← hb1]
      exact hl
    · apply hg.level b i a'
      rw [List.concat_eq_append, ← List.cons_append, ← List.append_assoc] at hb'
      exact (List.append_inj' hb' rfl).1
  empty i hi := by
    obtain hi | hi := List.mem_append.mp hi
    · exact hg.empty i hi
    · rw [List.mem_singleton.mp hi]
      exact he
  fits i hi := by
    obtain hi | hi := List.mem_append.mp hi
    · exact hg.fits i hi
    · rw [List.mem_singleton.mp hi]
      exact hf

theorem write_popped (req : Request) (active : Option ℕ) {out : Buffer} (hcall : Harmless call)
    (hg : WellFormed g) (hs : g.handlers = below ++ [h]) (hleft : (g.handler h).buffer.data = [])
    (hb : Balanced g below out.data [h]) (ha : below ≠ [] → active.isSome = true) :
    Settled { g with handlers := below, active := active }
      (if out.used ≠ 0 then
        php_output_write req call out.data { g with handlers := below, active := active }
      else { g with handlers := below, active := active }) := by
  have hg1 := hg.pop hs ha
  have hb1 : Balanced { g with handlers := below, active := active } below out.data [] := by
    refine hb.transfer rfl rfl rfl ?_
    rw [contents_cons, contents_nil, hleft]
    rfl
  by_cases hu : out.used ≠ 0
  · rw [if_pos hu]
    exact php_output_write_spec hcall hg1 hb1
  · rw [if_neg hu]
    have hnil : out.data = [] := List.eq_nil_of_length_eq_zero (not_not.mp hu)
    rw [hnil] at hb1
    exact ⟨hg1, Frame.refl _, hb1⟩

theorem flushed_idle {g1 g3 : Globals} (hg : WellFormed g1) (hs : g1.handlers = below ++ [h])
    (hr : g1.running = none) (hact : g1.active = some h)
    (hleft : (g1.handler h).buffer.data = [])
    (hw : Settled { g1 with handlers := below, active := g1.active } g3) :
    Idle { g3 with handlers := g3.handlers ++ g3.active.toList } := by
  have hkept : g3.handlers = below := hw.frame.handlers
  have hact3 : g3.active = some h := hw.frame.active.trans hact
  have hnotMem : h ∉ below := (hg.notMem hs).1
  have hsame : g3.handler h = g1.handler h := hw.frame.others h hnotMem
  have htop : h < g1.next := hg.fresh h (mem_of_split hs)
  have hpush : WellFormed
      { g3 with handlers := g3.handlers ++ [h], active := g3.active, next := g3.next } := by
    apply hw.wellFormed.push
    · rw [hkept]
      exact hnotMem
    · rw [hact3]
      rfl
    · exact Nat.le_refl _
    · rw [hw.frame.next]
      exact htop
    · rw [hsame, hkept]
      exact hg.level below h [] hs
    · rw [hsame]
      exact fun _ => hleft
    · rw [hsame]
      exact hg.fits h (mem_of_split hs)
  rw [hact3]
  refine ⟨?_, hw.frame.running.trans hr, ?_, ?_⟩
  · rw [hact3] at hpush
    exact hpush
  · exact List.getLast?_concat.symm
  · refine hw.balanced.transfer rfl rfl rfl ?_
    show g3.contents (g3.handlers ++ [h]) ++ [] ++ [] = _
    rw [contents_append, contents_cons, contents_nil, hsame, hleft, hkept]
    simp [contents_nil]

theorem php_output_flush_idle (hcall : Harmless call) (hi : Idle g) :
    Idle (php_output_flush req call g).1 := by
  unfold php_output_flush
  generalize hact : g.active = active
  cases active with
  | none => exact hi
  | some h =>
    dsimp only
    by_cases hflush : (g.handler h).flags.flushable = true
    · rw [if_pos hflush]
      obtain ⟨below, hs⟩ := hi.handlers_of_active hact
      obtain ⟨hwf, hframe, -, hbal, -, hleft⟩ :
          Handled g below h [] (php_output_context_init PHP_OUTPUT_HANDLER_FLUSH)
            (php_output_handler_op req call g h
              (php_output_context_init PHP_OUTPUT_HANDLER_FLUSH)) := by
        apply php_output_handler_op_spec hcall hi.wellFormed hs (Or.inl hi.running)
          (fun _ => rfl) rfl
        rw [← hs]
        exact hi.balanced
      have hempty := hleft (by decide)
      generalize php_output_handler_op req call g h _ = r at *
      obtain ⟨g1, context1, status⟩ := r
      dsimp only at hwf hframe hbal hempty ⊢
      have hs1 : g1.handlers = below ++ [h] := hframe.handlers.trans hs
      have hact1 : g1.active = some h := hframe.active.trans hact
      have hr1 : g1.running = none := hframe.running.trans hi.running
      by_cases hu : context1.out.used ≠ 0
      · rw [if_pos hu]
        have hsettled := write_popped req g1.active hcall hwf hs1 hempty hbal
          fun _ => by rw [hact1]; rfl
        rw [if_pos hu] at hsettled
        have hdrop : g1.handlers.dropLast = below := by rw [hs1, List.dropLast_concat]
        rw [hdrop]
        exact flushed_idle hwf hs1 hr1 hact1 hempty hsettled
      · rw [if_neg hu]
        have hnil : context1.out.data = [] := List.eq_nil_of_length_eq_zero (not_not.mp hu)
        rw [hnil] at hbal
        apply hi.of_settled
        exact ⟨hwf, hframe, hbal.split (by rw [List.append_nil, hs])⟩
    · rw [if_neg hflush]
      exact hi

theorem php_output_stack_pop_run_spec (req : Request) (hcall : Harmless call) (hi : Idle g)
    (hs : g.handlers = below ++ [h]) :
    WellFormed (php_output_stack_pop_run req call g h).1 ∧
      Frame g (php_output_stack_pop_run req call g h).1 ∧
      Balanced (php_output_stack_pop_run req call g h).1 below
        (php_output_stack_pop_run req call g h).2.out.data [h] ∧
      ((php_output_stack_pop_run req call g h).1.handler h).buffer.data = [] := by
  have hb : Balanced g (below ++ [h]) [] [] := by
    rw [← hs]
    exact hi.balanced
  unfold php_output_stack_pop_run
  dsimp only
  by_cases hdis : (g.handler h).flags.disabled = true
  · rw [if_pos hdis]
    exact ⟨hi.wellFormed, Frame.refl g, hb.split (by rw [List.append_nil]),
      hi.wellFormed.empty h (mem_of_split hs) hdis⟩
  · rw [if_neg hdis]
    generalize hc : ({ php_output_context_init PHP_OUTPUT_HANDLER_FINAL with
      op := _ } : Context) = context
    have hop : context.op ≠ 0 := by
      rw [← hc]
      dsimp only
      split
      · decide
      · decide
    have hin : context.input.data = [] := by rw [← hc]; rfl
    have hout : context.out.data = [] := by rw [← hc]; rfl
    obtain ⟨hwf, hframe, -, hbal, -, hleft⟩ :
        Handled g below h [] context (php_output_handler_op req call g h context) := by
      apply php_output_handler_op_spec hcall hi.wellFormed hs (Or.inl hi.running)
        (fun _ => hin) hout
      rw [hin]
      exact hb
    exact ⟨hwf, hframe, hbal, hleft hop⟩

theorem php_output_stack_pop_idle (req : Request) (force : Bool) (hcall : Harmless call)
    (hi : Idle g) :
    Idle (php_output_stack_pop req call force g).1 ∧
      ((php_output_stack_pop req call force g).2 = true →
        (php_output_stack_pop req call force g).1.handlers = g.handlers.dropLast) ∧
      (force = true → g.active.isSome = true →
        (php_output_stack_pop req call force g).2 = true) := by
  unfold php_output_stack_pop
  generalize hact : g.active = active
  cases active with
  | none => exact ⟨hi, by simp, by simp⟩
  | some h =>
    dsimp only
    obtain ⟨below, hs⟩ := hi.handlers_of_active hact
    by_cases hkeep : (!force && !(g.handler h).flags.removable) = true
    · rw [if_pos hkeep]
      refine ⟨hi, by simp, ?_⟩
      intro hforce
      rw [hforce] at hkeep
      simp at hkeep
    rw [if_neg hkeep]
    obtain ⟨hwf, hframe, hbal, hempty⟩ := php_output_stack_pop_run_spec req hcall hi hs
    generalize php_output_stack_pop_run req call g h = r at *
    obtain ⟨g1, context1⟩ := r
    dsimp only at hwf hframe hbal hempty ⊢
    have hs1 : g1.handlers = below ++ [h] := hframe.handlers.trans hs
    have hdrop : g1.handlers.dropLast = below := by rw [hs1, List.dropLast_concat]
    rw [hdrop, hs, List.dropLast_concat]
    have hsettled := write_popped req below.getLast? hcall hwf hs1 hempty hbal fun hne => by
      rw [List.getLast?_eq_getLast hne]
      rfl
    refine ⟨?_, fun _ => hsettled.frame.handlers, fun _ _ => rfl⟩
    refine ⟨hsettled.wellFormed, ?_, ?_, ?_⟩
    · exact hsettled.frame.running.trans (hframe.running.trans hi.running)
    · rw [hsettled.frame.active, hsettled.frame.handlers]
    · rw [hsettled.frame.handlers]
      exact hsettled.balanced

theorem php_output_end_all_loop_idle (hcall : Harmless call) (n : ℕ) :
    ∀ g : Globals, Idle g → g.handlers.length ≤ n →
      Idle (php_output_end_all_loop req call n g) ∧
        (php_output_end_all_loop req call n g).active = none := by
  induction n with
  | zero =>
    intro g hi hn
    have hnil : g.handlers = [] := List.length_eq_zero_iff.mp (Nat.le_zero.mp hn)
    refine ⟨hi, ?_⟩
    show g.active = none
    rw [hi.active, hnil]
    rfl
  | succ n ih =>
    intro g hi hn
    rw [php_output_end_all_loop]
    by_cases hact : g.active.isSome = true
    · rw [if_pos hact]
      obtain ⟨hidle, hdrop, hpop⟩ := php_output_stack_pop_idle req true hcall hi
      have htrue := hpop rfl hact
      generalize php_output_stack_pop req call true g = r at *
      obtain ⟨g1, popped⟩ := r
      dsimp only at hidle hdrop htrue ⊢
      rw [if_pos htrue]
      apply ih g1 hidle
      rw [hdrop htrue, List.length_dropLast]
      omega
    · rw [if_neg hact]
      exact ⟨hi, Option.not_isSome_iff_eq_none.mp hact⟩

theorem php_output_handler_start_idle {handler : Handler} {conflict : Bool} (hi : Idle g)
    (he : handler.buffer.data = []) :
    Idle (php_output_handler_start req handler conflict g).1 := by
  unfold php_output_handler_start
  have hlock : php_output_lock_error g PHP_OUTPUT_HANDLER_START = false := by
    unfold php_output_lock_error
    simp [hi.running]
  rw [hlock, if_neg Bool.false_ne_true]
  by_cases hconflict : conflict = true
  · rw [if_pos hconflict]
    exact hi
  rw [if_neg hconflict]
  dsimp only
  generalize hstarted : ({ handler with level := g.handlers.length } : Handler) = started
  have hdata : started.buffer.data = [] := by
    rw [← hstarted]
    exact he
  have hnotMem : g.next ∉ g.handlers := fun hm => Nat.lt_irrefl _ (hi.wellFormed.fresh _ hm)
  have hold : ∀ i ∈ g.handlers, (g.setHandler g.next started).handler i = g.handler i :=
    fun i him => setHandler_of_ne fun e => hnotMem (e ▸ him)
  have hself : (g.setHandler g.next started).handler g.next = started := setHandler_self
  have hset : WellFormed (g.setHandler g.next started) := by
    have hg := hi.wellFormed
    refine ⟨hg.activated, hg.active, hg.nodup, hg.fresh, ?_, ?_, ?_⟩
    · intro below i above hs
      rw [hold i (mem_of_split hs)]
      exact hg.level below i above hs
    · intro i him
      rw [hold i him]
      exact hg.empty i him
    · intro i him
      rw [hold i him]
      exact hg.fits i him
  refine ⟨?_, hi.running, List.getLast?_concat.symm, ?_⟩
  · apply hset.push hnotMem rfl (Nat.le_succ _) (Nat.lt_succ_self _)
    · rw [hself, ← hstarted]
      rfl
    · rw [hself]
      exact fun _ => hdata
    · rw [hself, Buffer.used, hdata]
      exact Nat.zero_le _
  · refine hi.balanced.transfer rfl rfl rfl ?_
    show (g.setHandler g.next started).contents (g.handlers ++ [g.next]) ++ [] ++ [] = _
    rw [contents_append, contents_cons, contents_nil, hself, hdata, contents_setHandler hnotMem]
    simp [contents_nil]

end Operations

/-! ## Runs -/

theorem step_idle (req : Request) {g : Globals} (operation : Operation) (hi : Idle g) :
    Idle (step req g operation) := by
  have hcall := callUser_harmless req
  cases operation with
  | start flags chunk_size conflict => exact php_output_handler_start_idle hi rfl
  | write str => exact hi.of_settled (echo_spec str hcall hi.wellFormed hi.balanced)
  | flush => exact php_output_flush_idle hcall hi
  | flush_all =>
    rw [step]
    unfold php_output_flush_all
    split
    · exact hi.of_settled (php_output_op_spec hcall hi.wellFormed (Or.inl hi.running) hi.balanced)
    · exact hi
  | end_flush => exact (php_output_stack_pop_idle req false hcall hi).1
  | end_all => exact (php_output_end_all_loop_idle hcall _ g hi (Nat.le_refl _)).1

theorem php_output_activate_idle : Idle php_output_activate where
  wellFormed := by
    refine ⟨rfl, fun hne => absurd rfl hne, List.nodup_nil, ?_, ?_, ?_, ?_⟩
    · intro h hh
      exact absurd hh List.not_mem_nil
    · intro below h above hs
      simp [php_output_activate] at hs
    · intro h hh
      exact absurd hh List.not_mem_nil
    · intro h hh
      exact absurd hh List.not_mem_nil
  running := rfl
  active := rfl
  balanced := ⟨List.prefix_refl _, fun _ => rfl⟩

theorem run_idle (req : Request) (operations : List Operation) : Idle (run req operations) := by
  have hfold : ∀ (operations : List Operation) (g : Globals), Idle g →
      Idle (operations.foldl (step req) g) := by
    intro operations
    induction operations with
    | nil => exact fun _ hi => hi
    | cons operation operations ih => exact fun _ hi => ih _ (step_idle req operation hi)
  exact hfold operations _ php_output_activate_idle

/-- The SAPI gets a beginning of what is written, and unless output is disabled the buffers hold the
rest: with the last buffer ended, everything written went to the SAPI. -/
theorem output_conserved (req : Request) (operations : List Operation) :
    (run req operations).sapi <+: (run req operations).written ∧
      ((run req operations).outputDisabled = false →
        (run req operations).sapi ++ (run req operations).contents (run req operations).handlers =
          (run req operations).written ∧
        ((run req operations).active = none →
          (run req operations).sapi = (run req operations).written)) := by
  have hi := run_idle req operations
  refine ⟨hi.balanced.sent, ?_⟩
  intro hon
  have hall := hi.balanced.balance hon
  rw [contents_nil, List.append_nil, List.append_nil] at hall
  refine ⟨hall, ?_⟩
  intro hnone
  have hempty : (run req operations).handlers = [] := by
    rw [hi.active] at hnone
    exact List.getLast?_eq_none_iff.mp hnone
  rw [hempty, contents_nil, List.append_nil] at hall
  exact hall

/-- Three nested buffers, the middle one of a user handler that writes when it is called. -/
def nestedBuffers : List Operation :=
  let flags : HandlerFlags := { user := false, flushable := true, removable := true,
                                started := false, disabled := false, processed := false }
  [.start flags 2 false, .write [1, 2, 3], .start { flags with user := true } 0 false, .write [4],
    .start flags 0 false, .write [5], .flush, .flush_all, .write [6], .end_flush, .end_all]

theorem output_conserved_nested :
    let req : Request := { header := fun _ => true, echo := fun n _ _ => [[n.toUInt8], [7]] }
    (run req nestedBuffers).sapi = (run req nestedBuffers).written := by
  intro req
  exact ((output_conserved req nestedBuffers).2 (by decide)).2 (by decide)

/-- In a request for the headers only, the body does not get to the SAPI. -/
theorem output_headers_only :
    ¬ ∀ (req : Request) (operations : List Operation),
      (run req operations).sapi ++ (run req operations).contents (run req operations).handlers =
        (run req operations).written := by
  intro h
  have hhead := h { header := fun _ => false, echo := fun _ _ _ => [] } [.write [65]]
  revert hhead
  decide

end PhpRuntime.Output
