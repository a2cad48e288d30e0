import Mathlib.Data.List.Infix
import PhpRuntime.Output.Layer

/-!
# The output layer conserves bytes

What went to the SAPI, then the buffers from the bottom of the stack to the top, are the bytes
written. While an operation walks down the stack, the data it takes along stands between the buffers
below and the buffers above.
-/

set_option autoImplicit false

namespace PhpRuntime.Output

open PhpRuntime.Lib HandlerStatus

/-! ## Well-formed stacks -/

/-- The stack between two steps of the layer: the levels are the positions, and handlers that are
disabled hold nothing. -/
structure WellFormed (g : Globals) : Prop where
  activated : g.activated = true
  active : g.handlers ≠ [] → g.active.isSome = true
  nodup : g.handlers.Nodup
  fresh : ∀ h ∈ g.handlers, h < g.next
  level : ∀ below h above, g.handlers = below ++ h :: above → (g.handler h).level = below.length
  empty : ∀ h ∈ g.handlers, (g.handler h).flags.disabled = true → (g.handler h).buffer.data = []
  fits : ∀ h ∈ g.handlers, (g.handler h).buffer.used ≤ (g.handler h).buffer.size

/-- What a step leaves as it is. -/
structure Frame (g g' : Globals) : Prop where
  handlers : g'.handlers = g.handlers
  active : g'.active = g.active
  running : g'.running = g.running
  next : g'.next = g.next
  others : ∀ h ∉ g.handlers, g'.handler h = g.handler h

namespace Frame

variable {g g' g'' : Globals}

theorem refl (g : Globals) : Frame g g :=
  ⟨rfl, rfl, rfl, rfl, fun _ _ => rfl⟩

theorem trans (h : Frame g g') (h' : Frame g' g'') : Frame g g'' where
  handlers := h'.handlers.trans h.handlers
  active := h'.active.trans h.active
  running := h'.running.trans h.running
  next := h'.next.trans h.next
  others i hi := by
    have hi' : i ∉ g'.handlers := by
      rw [h.handlers]
      exact hi
    exact (h'.others i hi').trans (h.others i hi)

end Frame

section Cells

variable {g : Globals} {h : ℕ} {handler : Handler} {below above : List ℕ}

theorem setHandler_self : (g.setHandler h handler).handler h = handler :=
  Function.update_self ..

theorem setHandler_of_ne {i : ℕ} (hi : i ≠ h) : (g.setHandler h handler).handler i = g.handler i :=
  Function.update_of_ne hi ..

theorem Frame.setHandler (hh : h ∈ g.handlers) : Frame g (g.setHandler h handler) where
  handlers := rfl
  active := rfl
  running := rfl
  next := rfl
  others _ hi := setHandler_of_ne fun e => hi (e ▸ hh)

theorem contents_setHandler {row : List ℕ} (hh : h ∉ row) :
    (g.setHandler h handler).contents row = g.contents row := by
  apply gather_congr
  intro i hi
  have hne : i ≠ h := fun e => hh (e ▸ hi)
  exact congrArg (fun handler => handler.buffer.data) (setHandler_of_ne hne)

theorem contents_append (g : Globals) (row row' : List ℕ) :
    g.contents (row ++ row') = g.contents row ++ g.contents row' :=
  gather_append ..

theorem contents_cons (g : Globals) (h : ℕ) (row : List ℕ) :
    g.contents (h :: row) = (g.handler h).buffer.data ++ g.contents row :=
  rfl

theorem contents_nil (g : Globals) : g.contents [] = [] :=
  rfl

theorem WellFormed.notMem (hg : WellFormed g) (hs : g.handlers = below ++ h :: above) :
    h ∉ below ∧ h ∉ above := by
  have hn := hg.nodup
  rw [hs, List.nodup_append, List.nodup_cons] at hn
  obtain ⟨-, ⟨ha, -⟩, hd⟩ := hn
  exact ⟨fun hb => hd h hb h List.mem_cons_self rfl, ha⟩

theorem mem_of_split (hs : g.handlers = below ++ h :: above) : h ∈ g.handlers := by
  rw [hs]
  exact List.mem_append_right _ List.mem_cons_self

theorem WellFormed.setHandler (hg : WellFormed g) (hl : handler.level = (g.handler h).level)
    (he : handler.flags.disabled = true → handler.buffer.data = [])
    (hf : handler.buffer.used ≤ handler.buffer.size) : WellFormed (g.setHandler h handler) where
  activated := hg.activated
  active := hg.active
  nodup := hg.nodup
  fresh := hg.fresh
  level below i above hs := by
    by_cases hi : i = h
    · subst hi
      rw [setHandler_self, hl]
      exact hg.level below i above hs
    · rw [setHandler_of_ne hi]
      exact hg.level below i above hs
  empty i hi hd := by
    by_cases hih : i = h
    · subst hih
      rw [setHandler_self] at hd ⊢
      exact he hd
    · rw [setHandler_of_ne hih] at hd ⊢
      exact hg.empty i hi hd
  fits i hi := by
    by_cases hih : i = h
    · subst hih
      rw [setHandler_self]
      exact hf
    · rw [setHandler_of_ne hih]
      exact hg.fits i hi

end Cells

/-! ## The balance -/

/-- The buffers below, the data `c` on its way, and the buffers above hold what was written and did
not go to the SAPI, unless output is disabled. -/
structure Balanced (g : Globals) (below : List ℕ) (c : List UInt8) (above : List ℕ) : Prop where
  sent : g.sapi <+: g.written
  balance : g.outputDisabled = false →
    g.sapi ++ (g.contents below ++ c ++ g.contents above) = g.written

theorem Balanced.transfer {g g' : Globals} {below below' above above' : List ℕ}
    {c c' : List UInt8} (hb : Balanced g below c above) (hs : g'.sapi = g.sapi)
    (hw : g'.written = g.written) (hd : g'.outputDisabled = g.outputDisabled)
    (he : g'.contents below' ++ c' ++ g'.contents above' =
      g.contents below ++ c ++ g.contents above) :
    Balanced g' below' c' above' where
  sent := by
    rw [hs, hw]
    exact hb.sent
  balance hg' := by
    rw [hs, hw, he]
    exact hb.balance (hd ▸ hg')

theorem Balanced.split {g : Globals} {below below' above above' : List ℕ}
    (hb : Balanced g below [] above) (he : below' ++ above' = below ++ above) :
    Balanced g below' [] above' := by
  apply hb.transfer rfl rfl rfl
  rw [List.append_nil, List.append_nil, ← contents_append, ← contents_append, he]

/-! ## One handler -/

theorem le_initbufSize (s : ℕ) : s ≤ PHP_OUTPUT_HANDLER_INITBUF_SIZE s := by
  unfold PHP_OUTPUT_HANDLER_INITBUF_SIZE PHP_OUTPUT_HANDLER_ALIGNTO_SIZE
    PHP_OUTPUT_HANDLER_DEFAULT_SIZE
  split
  · have := Nat.mod_lt s (show 0x1000 > 0 by decide)
    omega
  · omega

theorem Buffer.store_fits {buffer : Buffer} (size : ℕ) (data : List UInt8)
    (h : buffer.used ≤ buffer.size) :
    (buffer.store size data).used ≤ (buffer.store size data).size := by
  have hroom := le_initbufSize (data.length - (buffer.size - buffer.used))
  have hused : (buffer.store size data).used = buffer.used + data.length := List.length_append
  rw [hused]
  show _ ≤ if buffer.size - buffer.used ≤ data.length then _ else _
  split
  · have hmax := Nat.le_max_right (PHP_OUTPUT_HANDLER_INITBUF_SIZE size)
      (PHP_OUTPUT_HANDLER_INITBUF_SIZE (data.length - (buffer.size - buffer.used)))
    omega
  · omega

section Operations

variable {req : Request} {call : List UInt8 → ℕ → Globals → Globals}
variable {g : Globals} {h : ℕ} {below above : List ℕ} {context : Context}

theorem append_of_used {buf : Buffer} (hu : buf.used ≠ 0) :
    (php_output_handler_append g h buf).1 =
      ({ g with outputWritten := true } : Globals).setHandler h ((g.handler h).holding
        ((g.handler h).buffer.store (g.handler h).size buf.data)) := by
  unfold php_output_handler_append
  rw [if_pos hu]
  dsimp only
  split
  · rfl
  · rfl

theorem append_of_not_used {buf : Buffer} (hu : buf.used = 0) :
    php_output_handler_append g h buf = (g, true) :=
  if_neg (not_not.mpr hu)

theorem append_running (buf : Buffer) (hr : g.running.isSome = true) :
    (php_output_handler_append g h buf).2 = true := by
  unfold php_output_handler_append
  split
  · dsimp only
    split
    · exact hr
    · rfl
  · rfl

theorem php_output_handler_append_spec {buf : Buffer} (hg : WellFormed g)
    (hs : g.handlers = below ++ h :: above)
    (hd : (g.handler h).flags.disabled = true → buf.data = [])
    (hb : Balanced g (below ++ [h]) buf.data above) :
    WellFormed (php_output_handler_append g h buf).1 ∧
      Frame g (php_output_handler_append g h buf).1 ∧
      Balanced (php_output_handler_append g h buf).1 below [] (h :: above) := by
  obtain ⟨hbelow, habove⟩ := hg.notMem hs
  have hmem := mem_of_split hs
  by_cases hu : buf.used = 0
  · have hnil : buf.data = [] := List.eq_nil_of_length_eq_zero hu
    rw [append_of_not_used hu]
    rw [hnil] at hb
    exact ⟨hg, Frame.refl g, hb.split (by rw [List.append_assoc, List.singleton_append])⟩
  rw [append_of_used hu]
  have hg1 : WellFormed { g with outputWritten := true } :=
    ⟨hg.activated, hg.active, hg.nodup, hg.fresh, hg.level, hg.empty, hg.fits⟩
  have hf1 : Frame g { g with outputWritten := true } :=
    ⟨rfl, rfl, rfl, rfl, fun _ _ => rfl⟩
  refine ⟨hg1.setHandler rfl ?_ (Buffer.store_fits _ _ (hg.fits h hmem)),
    hf1.trans (Frame.setHandler hmem), ?_⟩
  · intro hdis
    rw [Buffer.used, hd hdis] at hu
    exact absurd rfl hu
  · refine hb.transfer rfl rfl rfl ?_
    rw [contents_cons, setHandler_self, contents_setHandler hbelow, contents_setHandler habove,
      contents_append, contents_cons, contents_nil, Handler.holding, Buffer.store]
    simp only [List.append_assoc, List.append_nil, List.nil_append]
    rfl

/-- The stack is left as it was, and it holds what is not sent. -/
structure Settled (g g' : Globals) : Prop where
  wellFormed : WellFormed g'
  frame : Frame g g'
  balanced : Balanced g' g.handlers [] []

theorem Settled.trans {g g' g'' : Globals} (h : Settled g g') (h' : Settled g' g'') :
    Settled g g'' := by
  refine ⟨h'.wellFormed, h.frame.trans h'.frame, ?_⟩
  rw [← h.frame.handlers]
  exact h'.balanced

/-- The call of a user function leaves the layer settled. -/
def Harmless (call : List UInt8 → ℕ → Globals → Globals) : Prop :=
  ∀ data mode g, g.running.isSome = true → WellFormed g → Balanced g g.handlers [] [] →
    Settled g (call data mode g)

/-- What an operation of a handler comes to: the output is between the buffers below and the
handler. -/
structure Handled (g : Globals) (below : List ℕ) (h : ℕ) (above : List ℕ) (context : Context)
    (r : Globals × Context × HandlerStatus) : Prop where
  wellFormed : WellFormed r.1
  frame : Frame g r.1
  op : r.2.1.op = context.op
  balanced : Balanced r.1 below r.2.1.out.data (h :: above)
  noData : r.2.2 = PHP_OUTPUT_HANDLER_NO_DATA → r.2.1.out.data = []
  emptied : context.op ≠ 0 → (r.1.handler h).buffer.data = []

theorem finish_failure (hg : WellFormed g) (hs : g.handlers = below ++ h :: above)
    (hb : Balanced g below [] (h :: above)) :
    WellFormed (php_output_handler_finish g h context PHP_OUTPUT_HANDLER_FAILURE).1 ∧
      Balanced (php_output_handler_finish g h context PHP_OUTPUT_HANDLER_FAILURE).1 below
        (php_output_handler_finish g h context PHP_OUTPUT_HANDLER_FAILURE).2.out.data
        (h :: above) := by
  obtain ⟨hbelow, habove⟩ := hg.notMem hs
  have hg1 : WellFormed { g with running := none } :=
    ⟨hg.activated, hg.active, hg.nodup, hg.fresh, hg.level, hg.empty, hg.fits⟩
  refine ⟨hg1.setHandler rfl (fun _ => rfl) (Nat.le_refl 0), ?_⟩
  refine hb.transfer rfl rfl rfl ?_
  simp only [php_output_handler_finish]
  rw [contents_cons, contents_cons, setHandler_self, contents_setHandler hbelow,
    contents_setHandler habove]
  simp only [Buffer.null, List.append_assoc, List.nil_append]
  rfl

theorem finish_passed {status : HandlerStatus} (context : Context) (hg : WellFormed g)
    (hs : g.handlers = below ++ h :: above) (hb : Balanced g below [] (h :: above))
    (hout : context.out.data = (g.handler h).buffer.data) (hf : status ≠ PHP_OUTPUT_HANDLER_FAILURE)
    (hn : status = PHP_OUTPUT_HANDLER_NO_DATA → context.out.data = []) :
    WellFormed (php_output_handler_finish g h context status).1 ∧
      Balanced (php_output_handler_finish g h context status).1 below
        (php_output_handler_finish g h context status).2.out.data (h :: above) := by
  obtain ⟨hbelow, habove⟩ := hg.notMem hs
  have hmem := mem_of_split hs
  have hg1 : WellFormed { g with running := none } :=
    ⟨hg.activated, hg.active, hg.nodup, hg.fresh, hg.level, hg.empty, hg.fits⟩
  have hempty : (php_output_handler_finish g h context status).2.out.data =
      (g.handler h).buffer.data := by
    cases status with
    | PHP_OUTPUT_HANDLER_FAILURE => exact absurd rfl hf
    | PHP_OUTPUT_HANDLER_SUCCESS => exact hout
    | PHP_OUTPUT_HANDLER_NO_DATA => exact (hn rfl).symm.trans hout
  have hkept : (php_output_handler_finish g h context status).1 =
      ({ g with running := none } : Globals).setHandler h
        (((g.handler h).ran true).holding { (g.handler h).buffer with data := [] }) := by
    cases status with
    | PHP_OUTPUT_HANDLER_FAILURE => exact absurd rfl hf
    | PHP_OUTPUT_HANDLER_SUCCESS => rfl
    | PHP_OUTPUT_HANDLER_NO_DATA => rfl
  rw [hempty, hkept]
  refine ⟨hg1.setHandler rfl (fun _ => rfl) (Nat.zero_le _), ?_⟩
  refine hb.transfer rfl rfl rfl ?_
  rw [contents_cons, contents_cons, setHandler_self, contents_setHandler hbelow,
    contents_setHandler habove]
  simp only [Handler.holding, List.append_assoc, List.nil_append]
  rfl

theorem finish_frame (context : Context) (status : HandlerStatus) (hh : h ∈ g.handlers) :
    Frame { g with running := none } (php_output_handler_finish g h context status).1 ∧
      ((php_output_handler_finish g h context status).1.handler h).buffer.data = [] := by
  cases status with
  | PHP_OUTPUT_HANDLER_FAILURE =>
    exact ⟨Frame.setHandler hh, congrArg (fun handler => handler.buffer.data) setHandler_self⟩
  | PHP_OUTPUT_HANDLER_SUCCESS =>
    exact ⟨Frame.setHandler hh, congrArg (fun handler => handler.buffer.data) setHandler_self⟩
  | PHP_OUTPUT_HANDLER_NO_DATA =>
    exact ⟨Frame.setHandler hh, congrArg (fun handler => handler.buffer.data) setHandler_self⟩

theorem successStatus_ne_failure (out : Buffer) :
    successStatus out ≠ PHP_OUTPUT_HANDLER_FAILURE := by
  unfold successStatus
  split
  · simp
  · simp

theorem successStatus_noData {out : Buffer} (h : successStatus out = PHP_OUTPUT_HANDLER_NO_DATA) :
    out.data = [] := by
  unfold successStatus at h
  split at h
  · simp at h
  · rename_i hzero
    exact List.eq_nil_of_length_eq_zero (not_not.mp hzero)

theorem process_spec (context : Context) (hcall : Harmless call) (hg : WellFormed g)
    (hs : g.handlers = below ++ h :: above) (hr : g.running = none)
    (hb : Balanced g below [] (h :: above)) :
    let r := php_output_handler_run call g h context
    let f := php_output_handler_finish r.1 h r.2.1 r.2.2
    WellFormed f.1 ∧ Frame g f.1 ∧ Balanced f.1 below f.2.out.data (h :: above) ∧
      (r.2.2 = PHP_OUTPUT_HANDLER_NO_DATA → f.2.out.data = []) ∧
      (f.1.handler h).buffer.data = [] := by
  have hmem := mem_of_split hs
  have hg1 : WellFormed { g with running := some h } :=
    ⟨hg.activated, hg.active, hg.nodup, hg.fresh, hg.level, hg.empty, hg.fits⟩
  have hb1 : Balanced { g with running := some h } below [] (h :: above) :=
    hb.transfer rfl rfl rfl rfl
  -- the handler that runs is only noted in between
  have hframe : ∀ g1, Frame { g with running := some h } g1 → Frame g { g1 with running := none } :=
    fun _ hf => ⟨hf.handlers, hf.active, hr.symm, hf.next, hf.others⟩
  unfold php_output_handler_run
  dsimp only
  split
  · rename_i huser
    have hall : Balanced { g with running := some h } g.handlers [] [] := by
      apply hb1.split
      rw [List.append_nil, hs]
    obtain ⟨hg2, hf2, hb2⟩ := hcall (g.handler h).buffer.data context.op
      { g with running := some h } rfl hg1 hall
    generalize call (g.handler h).buffer.data context.op { g with running := some h } = g2 at *
    have hs2 : g2.handlers = below ++ h :: above := hf2.handlers.trans hs
    have hb2' : Balanced g2 below [] (h :: above) := by
      apply hb2.split
      rw [List.append_nil, hs]
    obtain ⟨hwf, hbal⟩ := finish_failure hg2 hs2 hb2'
    obtain ⟨hfin, hleft⟩ := finish_frame context PHP_OUTPUT_HANDLER_FAILURE (mem_of_split hs2)
    exact ⟨hwf, (hframe g2 hf2).trans hfin, hbal, by simp, hleft⟩
  · generalize hst : successStatus _ = status
    have hf : status ≠ PHP_OUTPUT_HANDLER_FAILURE := hst ▸ successStatus_ne_failure _
    have hn : status = PHP_OUTPUT_HANDLER_NO_DATA → (g.handler h).buffer.data = [] :=
      fun h0 => successStatus_noData (hst.trans h0)
    let passed := php_output_handler_default_func
      (php_output_context_feed context (g.handler h).buffer)
    obtain ⟨hwf, hbal⟩ := finish_passed passed hg1 hs hb1 rfl hf hn
    obtain ⟨hfin, hleft⟩ := finish_frame passed status hmem
    refine ⟨hwf, (hframe _ (Frame.refl _)).trans hfin, hbal, ?_, hleft⟩
    intro h0
    rw [h0]
    rfl

theorem php_output_handler_op_spec (hcall : Harmless call) (hg : WellFormed g)
    (hs : g.handlers = below ++ h :: above) (hop : g.running = none ∨ context.op = 0)
    (hd : (g.handler h).flags.disabled = true → context.input.data = [])
    (hout : context.out.data = []) (hb : Balanced g (below ++ [h]) context.input.data above) :
    Handled g below h above context (php_output_handler_op req call g h context) := by
  have hlock : php_output_lock_error g context.op = false := by
    unfold php_output_lock_error
    obtain hr | h0 := hop
    · simp [hr]
    · simp [h0]
  obtain ⟨hg1, hf1, hb1⟩ := php_output_handler_append_spec hg hs hd hb
  have hrun := append_running (g := g) (h := h) context.input
  unfold php_output_handler_op
  rw [hlock, if_neg Bool.false_ne_true]
  generalize php_output_handler_append g h context.input = r at *
  obtain ⟨g1, stored⟩ := r
  dsimp only at hg1 hf1 hb1 hrun ⊢
  by_cases hstop : stored = true ∧ context.op = 0
  · rw [if_pos hstop]
    refine ⟨hg1, hf1, rfl, ?_, fun _ => hout, fun h0 => absurd hstop.2 h0⟩
    rw [hout]
    exact hb1
  rw [if_neg hstop]
  have hs1 : g1.handlers = below ++ h :: above := hf1.handlers.trans hs
  have hr1 : g1.running = none := by
    rw [hf1.running]
    apply Option.eq_none_iff_forall_ne_some.mpr
    intro i hi
    obtain hr | h0 := hop
    · rw [hr] at hi
      simp at hi
    · exact hstop ⟨hrun (by rw [hi]; rfl), h0⟩
  generalize hc : ({ context with op := _ } : Context) = started
  obtain ⟨hwf, hframe, hbal, hnone, hleft⟩ := process_spec started hcall hg1 hs1 hr1 hb1
  generalize php_output_handler_run call g1 h started = ran at *
  obtain ⟨g2, context2, status⟩ := ran
  dsimp only at hwf hframe hbal hnone hleft ⊢
  generalize php_output_handler_finish g2 h context2 status = fin at *
  obtain ⟨g3, context3⟩ := fin
  exact ⟨hwf, hf1.trans hframe, rfl, hbal, hnone, fun _ => hleft⟩

/-! ## The stack -/

/-- Where the walk over a stack gets: its output is for the SAPI, and the stack holds the rest. -/
structure Walked (g : Globals) (r : Globals × Context) : Prop where
  wellFormed : WellFormed r.1
  frame : Frame g r.1
  balanced : Balanced r.1 [] r.2.out.data g.handlers

/-- One handler of the walk: the walk ends with it, or its output is the input of the next. -/
structure Applied (g : Globals) (below : List ℕ) (h : ℕ) (above : List ℕ) (context : Context)
    (r : (Globals × Context) × Bool) : Prop where
  wellFormed : WellFormed r.1.1
  frame : Frame g r.1.1
  op : r.1.2.op = context.op
  last : r.2 = true ∨ below = [] → Balanced r.1.1 [] r.1.2.out.data g.handlers
  next : r.2 = false → below ≠ [] →
    r.1.2.out.data = [] ∧ Balanced r.1.1 below r.1.2.input.data (h :: above)

theorem stack_apply_disabled (hg : WellFormed g) (hs : g.handlers = below ++ h :: above)
    (hdis : (g.handler h).flags.disabled = true) (hout : context.out.data = [])
    (hb : Balanced g (below ++ [h]) context.input.data above) :
    Applied g below h above context (php_output_stack_apply_op req call h (g, context)) := by
  have hlevel := hg.level below h above hs
  have hempty := hg.empty h (mem_of_split hs) hdis
  have hbelow : Balanced g below context.input.data (h :: above) := by
    refine hb.transfer rfl rfl rfl ?_
    rw [contents_append, contents_cons, contents_cons, contents_nil, hempty]
    simp
  unfold php_output_stack_apply_op
  dsimp only
  rw [if_pos hdis, hlevel]
  by_cases hzero : below = []
  · rw [if_pos (by rw [hzero]; rfl)]
    refine ⟨hg, Frame.refl g, rfl, fun _ => ?_, fun _ hne => absurd hzero hne⟩
    rw [hzero] at hbelow hs
    rw [hs]
    exact hbelow
  · rw [if_neg (List.length_eq_zero_iff.not.mpr hzero)]
    refine ⟨hg, Frame.refl g, rfl, fun hlast => ?_, fun _ _ => ⟨hout, hbelow⟩⟩
    obtain hstop | hnil := hlast
    · simp at hstop
    · exact absurd hnil hzero

theorem stack_apply_spec (hcall : Harmless call) (hg : WellFormed g)
    (hs : g.handlers = below ++ h :: above) (hop : g.running = none ∨ context.op = 0)
    (hout : context.out.data = []) (hb : Balanced g (below ++ [h]) context.input.data above) :
    Applied g below h above context (php_output_stack_apply_op req call h (g, context)) := by
  by_cases hdis : (g.handler h).flags.disabled = true
  · exact stack_apply_disabled hg hs hdis hout hb
  have hlevel := hg.level below h above hs
  have hhandled : Handled g below h above context (php_output_handler_op req call g h context) :=
    php_output_handler_op_spec hcall hg hs hop (fun hd => absurd hd hdis) hout hb
  obtain ⟨hwf, hframe, hctx, hbal, hnone, -⟩ := hhandled
  unfold php_output_stack_apply_op
  dsimp only
  rw [if_neg hdis, hlevel]
  generalize php_output_handler_op req call g h context = r at *
  obtain ⟨g1, context1, status⟩ := r
  dsimp only at hwf hframe hctx hbal hnone ⊢
  -- whatever the status, a handler with nothing below it leaves its output
  have hlast : below = [] → Balanced g1 [] context1.out.data g.handlers := by
    intro hzero
    rw [hzero] at hbal hs
    rw [hs]
    exact hbal
  -- and above other handlers the output is swapped into the input
  have hswap : Applied g below h above context
      ((g1, if below.length = 0 then context1 else php_output_context_swap context1), false) := by
    by_cases hzero : below = []
    · rw [if_pos (by rw [hzero]; rfl)]
      exact ⟨hwf, hframe, hctx, fun _ => hlast hzero, fun _ hne => absurd hzero hne⟩
    · rw [if_neg (List.length_eq_zero_iff.not.mpr hzero)]
      refine ⟨hwf, hframe, hctx, fun hl => ?_, fun _ _ => ⟨rfl, hbal⟩⟩
      obtain hstop | hnil := hl
      · simp at hstop
      · exact absurd hnil hzero
  cases status with
  | PHP_OUTPUT_HANDLER_FAILURE => exact hswap
  | PHP_OUTPUT_HANDLER_SUCCESS => exact hswap
  | PHP_OUTPUT_HANDLER_NO_DATA =>
    refine ⟨hwf, hframe, hctx, fun _ => ?_, fun hgo => ?_⟩
    · rw [hnone rfl] at hbal ⊢
      apply hbal.split
      rw [hs, List.nil_append]
    · simp at hgo

/-- A walk down the stack, by induction on the handlers below: a disabled handler passes the data
by, a handler that keeps everything ends the walk, and the last one leaves its output. -/
theorem zend_stack_apply_topdown_spec (hcall : Harmless call) (row : List ℕ) :
    ∀ (g : Globals) (context : Context) (above : List ℕ), WellFormed g → row ≠ [] →
      g.handlers = row.reverse ++ above → (g.running = none ∨ context.op = 0) →
      context.out.data = [] → Balanced g row.reverse context.input.data above →
      Walked g
        (zend_stack_apply_topdown (php_output_stack_apply_op req call) row (g, context)) := by
  induction row with
  | nil =>
    intro g context above _ hne
    exact absurd rfl hne
  | cons h row ih =>
    intro g context above hg _ hs hop hout hb
    rw [List.reverse_cons] at hb
    have hs' : g.handlers = row.reverse ++ h :: above := by
      rw [hs, List.reverse_cons, List.append_assoc, List.singleton_append]
    have happlied : Applied g row.reverse h above context
        (php_output_stack_apply_op req call h (g, context)) :=
      stack_apply_spec hcall hg hs' hop hout hb
    obtain ⟨hwf, hframe, hctx, hlast, hnext⟩ := happlied
    rw [zend_stack_apply_topdown]
    generalize php_output_stack_apply_op req call h (g, context) = r at *
    obtain ⟨⟨g1, context1⟩, stop⟩ := r
    dsimp only at hwf hframe hctx hlast hnext ⊢
    cases stop with
    | true => exact ⟨hwf, hframe, hlast (Or.inl rfl)⟩
    | false =>
      by_cases hrow : row = []
      · have hnil : row.reverse = [] := by rw [hrow, List.reverse_nil]
        rw [hrow]
        exact ⟨hwf, hframe, hlast (Or.inr hnil)⟩
      · have hne : row.reverse ≠ [] := List.reverse_ne_nil_iff.mpr hrow
        obtain ⟨hout1, hb1⟩ := hnext rfl hne
        have hop1 : g1.running = none ∨ context1.op = 0 := by
          rw [hframe.running, hctx]
          exact hop
        obtain ⟨hwf2, hframe2, hb2⟩ := ih g1 context1 (h :: above) hwf hrow
          (hframe.handlers.trans hs') hop1 hout1 hb1
        rw [hframe.handlers] at hb2
        exact ⟨hwf2, hframe.trans hframe2, hb2⟩

theorem php_output_op_send_spec {out : Buffer} (hg : WellFormed g)
    (hb : Balanced g [] out.data g.handlers) : Settled g (php_output_op_send req g out) := by
  unfold php_output_op_send
  by_cases hu : out.used ≠ 0
  · rw [if_pos hu]
    dsimp only
    have hpass : g.sapi <+: g.written := hb.sent
    by_cases hdis : (php_output_header req g).outputDisabled = true
    · rw [if_pos hdis]
      refine ⟨⟨hg.activated, hg.active, hg.nodup, hg.fresh, hg.level, hg.empty, hg.fits⟩,
        ⟨rfl, rfl, rfl, rfl, fun _ _ => rfl⟩, hpass, ?_⟩
      intro hfalse
      rw [hdis] at hfalse
      simp at hfalse
    · rw [if_neg hdis]
      have hbal : g.sapi ++ out.data ++ g.contents g.handlers = g.written := by
        have hon : g.outputDisabled = false := by
          simp only [php_output_header, Bool.or_eq_true, not_or, Bool.not_eq_true] at hdis
          exact hdis.1
        have h0 := hb.balance hon
        rw [contents_nil, List.nil_append, ← List.append_assoc] at h0
        exact h0
      refine ⟨⟨hg.activated, hg.active, hg.nodup, hg.fresh, hg.level, hg.empty, hg.fits⟩,
        ⟨rfl, rfl, rfl, rfl, fun _ _ => rfl⟩, ⟨g.contents g.handlers, hbal⟩, ?_⟩
      intro _
      rw [contents_nil, List.append_nil, List.append_nil]
      exact hbal
  · rw [if_neg hu]
    have hnil : out.data = [] := List.eq_nil_of_length_eq_zero (not_not.mp hu)
    rw [hnil] at hb
    exact ⟨hg, Frame.refl g, hb.split (by rw [List.append_nil, List.nil_append])⟩

/-- The context that `php_output_op` starts with. -/
def fed (op : ℕ) (str : List UInt8) : Context :=
  { php_output_context_init op with input := { data := str, size := 0 } }

theorem php_output_op_send_output {g1 : Globals} {out : Buffer} (hg : WellFormed g1)
    (hf : Frame g g1) (hb : Balanced g1 [] out.data g.handlers) :
    Settled g (php_output_op_send req g1 out) := by
  rw [← hf.handlers] at hb
  obtain ⟨hwf, hframe, hbal⟩ : Settled g1 (php_output_op_send req g1 out) :=
    php_output_op_send_spec hg hb
  exact ⟨hwf, hf.trans hframe, hf.handlers ▸ hbal⟩

theorem php_output_op_spec {op : ℕ} {str : List UInt8} (hcall : Harmless call) (hg : WellFormed g)
    (hop : g.running = none ∨ op = 0) (hb : Balanced g g.handlers str []) :
    Settled g (php_output_op req call op str g) := by
  have hlock : php_output_lock_error g op = false := by
    unfold php_output_lock_error
    obtain hr | h0 := hop
    · simp [hr]
    · simp [h0]
  unfold php_output_op
  rw [hlock, if_neg Bool.false_ne_true]
  dsimp only
  by_cases hempty : g.handlers = []
  · rw [if_neg fun h0 => h0.2 (by rw [hempty]; rfl)]
    apply php_output_op_send_spec hg
    refine hb.transfer rfl rfl rfl ?_
    rw [hempty]
  rw [if_pos ⟨hg.active hempty, List.length_eq_zero_iff.not.mpr hempty⟩]
  by_cases hmany : 1 < g.handlers.length
  · rw [if_pos hmany]
    obtain ⟨hwf, hframe, hbal⟩ : Walked g (zend_stack_apply_topdown
        (php_output_stack_apply_op req call) g.handlers.reverse (g, fed op str)) := by
      apply zend_stack_apply_topdown_spec hcall g.handlers.reverse g (fed op str) [] hg
        (List.reverse_ne_nil_iff.mpr hempty) _ hop rfl
      · rw [List.reverse_reverse]
        exact hb
      · rw [List.reverse_reverse, List.append_nil]
    exact php_output_op_send_output hwf hframe hbal
  rw [if_neg hmany]
  obtain ⟨h, hone⟩ : ∃ h, g.handlers = [h] := by
    apply List.length_eq_one_iff.mp
    have := List.length_pos_iff.mpr hempty
    omega
  have hlast : g.handlers.getLast? = some h := by
    rw [hone]
    rfl
  rw [hlast]
  dsimp only
  by_cases hdis : (g.handler h).flags.disabled = true
  · rw [if_pos hdis]
    apply php_output_op_send_spec hg
    have hnone := hg.empty h (by rw [hone]; exact List.mem_cons_self) hdis
    refine hb.transfer rfl rfl rfl ?_
    rw [hone, contents_cons, contents_nil, hnone]
    simp [php_output_context_pass, contents_nil]
  · rw [if_neg hdis]
    obtain ⟨hwf, hframe, -, hbal, -, -⟩ :
        Handled g [] h [] (fed op str) (php_output_handler_op req call g h (fed op str)) := by
      apply php_output_handler_op_spec hcall hg hone hop (fun hd => absurd hd hdis) rfl
      rw [hone] at hb
      exact hb
    rw [← hone] at hbal
    exact php_output_op_send_output hwf hframe hbal

theorem php_output_write_spec {str : List UInt8} (hcall : Harmless call) (hg : WellFormed g)
    (hb : Balanced g g.handlers str []) : Settled g (php_output_write req call str g) := by
  unfold php_output_write
  by_cases hdis : g.outputDisabled = true
  · rw [if_pos hdis]
    refine ⟨hg, Frame.refl g, hb.sent, ?_⟩
    intro hfalse
    rw [hdis] at hfalse
    simp at hfalse
  · rw [if_neg hdis, if_pos hg.activated]
    exact php_output_op_spec hcall hg (Or.inr rfl) hb

theorem echo_spec (str : List UInt8) (hcall : Harmless call) (hg : WellFormed g)
    (hb : Balanced g g.handlers [] []) : Settled g (echo req call str g) := by
  unfold echo
  have hg1 : WellFormed { g with written := g.written ++ str } :=
    ⟨hg.activated, hg.active, hg.nodup, hg.fresh, hg.level, hg.empty, hg.fits⟩
  obtain ⟨hwf, hframe, hbal⟩ : Settled { g with written := g.written ++ str }
      (php_output_write req call str { g with written := g.written ++ str }) := by
    apply php_output_write_spec hcall hg1
    refine ⟨hb.sent.trans (List.prefix_append _ _), ?_⟩
    intro hon
    have h0 := hb.balance hon
    rw [contents_nil, List.append_nil, List.append_nil] at h0
    show g.sapi ++ (g.contents g.handlers ++ str ++ []) = g.written ++ str
    rw [← h0, List.append_nil, List.append_assoc]
  exact ⟨hwf, ⟨hframe.handlers, hframe.active, hframe.running, hframe.next, hframe.others⟩, hbal⟩

end Operations

section Locked

variable {req : Request} {call call' : List UInt8 → ℕ → Globals → Globals} {g : Globals}

theorem handler_op_running {h : ℕ} {context : Context} (hr : g.running.isSome = true)
    (hop : context.op = 0) :
    php_output_handler_op req call g h context =
      ((php_output_handler_append g h context.input).1, context, PHP_OUTPUT_HANDLER_NO_DATA) := by
  have hlock : php_output_lock_error g context.op = false := by
    unfold php_output_lock_error
    simp [hop]
  have hstored := append_running (h := h) context.input hr
  unfold php_output_handler_op
  rw [hlock, if_neg Bool.false_ne_true]
  generalize php_output_handler_append g h context.input = r at *
  obtain ⟨g1, stored⟩ := r
  exact if_pos ⟨hstored, hop⟩

theorem stack_apply_of_disabled {h : ℕ} {context : Context}
    (hdis : (g.handler h).flags.disabled = true) :
    php_output_stack_apply_op req call h (g, context) =
      ((g, if (g.handler h).level = 0 then php_output_context_pass context else context), false) :=
  if_pos hdis

theorem stack_apply_running {h : ℕ} {context : Context} (hr : g.running.isSome = true)
    (hop : context.op = 0) (hdis : (g.handler h).flags.disabled ≠ true) :
    php_output_stack_apply_op req call h (g, context) =
      (((php_output_handler_append g h context.input).1, context), true) := by
  unfold php_output_stack_apply_op
  dsimp only
  rw [if_neg hdis, handler_op_running hr hop]

variable (req call call') in
theorem zend_stack_apply_running (hr : g.running.isSome = true) (row : List ℕ) :
    ∀ context : Context, context.op = 0 →
      zend_stack_apply_topdown (php_output_stack_apply_op req call) row (g, context) =
        zend_stack_apply_topdown (php_output_stack_apply_op req call') row (g, context) := by
  induction row with
  | nil => exact fun _ _ => rfl
  | cons h row ih =>
    intro context hop
    rw [zend_stack_apply_topdown, zend_stack_apply_topdown]
    by_cases hdis : (g.handler h).flags.disabled = true
    · rw [stack_apply_of_disabled hdis, stack_apply_of_disabled hdis]
      apply ih
      split
      · exact hop
      · exact hop
    · rw [stack_apply_running hr hop hdis, stack_apply_running hr hop hdis]
      rfl

theorem append_keeps_running (h : ℕ) (buf : Buffer) :
    (php_output_handler_append g h buf).1.running = g.running := by
  by_cases hu : buf.used = 0
  · rw [append_of_not_used hu]
  · rw [append_of_used hu]
    rfl

variable (req call) in
theorem zend_stack_apply_keeps_running (hr : g.running.isSome = true) (row : List ℕ) :
    ∀ context : Context, context.op = 0 →
      (zend_stack_apply_topdown (php_output_stack_apply_op req call) row (g, context)).1.running =
        g.running := by
  induction row with
  | nil => exact fun _ _ => rfl
  | cons h row ih =>
    intro context hop
    rw [zend_stack_apply_topdown]
    by_cases hdis : (g.handler h).flags.disabled = true
    · rw [stack_apply_of_disabled hdis]
      apply ih
      split
      · exact hop
      · exact hop
    · rw [stack_apply_running hr hop hdis]
      exact append_keeps_running h context.input

theorem send_keeps_running (out : Buffer) :
    (php_output_op_send req g out).running = g.running := by
  unfold php_output_op_send
  dsimp only
  split
  · split
    · rfl
    · rfl
  · rfl

variable (req call call') in
/-- Output while a handler runs makes no handler run, and that handler goes on. -/
theorem echo_running (str : List UInt8) (hr : g.running.isSome = true) :
    echo req call str g = echo req call' str g ∧ (echo req call str g).running = g.running := by
  have hr' : ({ g with written := g.written ++ str } : Globals).running.isSome = true := hr
  unfold echo
  generalize hg : ({ g with written := g.written ++ str } : Globals) = g1 at hr'
  have hrun : g1.running = g.running := by rw [← hg]
  have hwalk := zend_stack_apply_running req call call' hr' g1.handlers.reverse
    (fed PHP_OUTPUT_HANDLER_WRITE str) rfl
  have hkeeps := zend_stack_apply_keeps_running req call' hr' g1.handlers.reverse
    (fed PHP_OUTPUT_HANDLER_WRITE str) rfl
  have hone : ∀ (call : List UInt8 → ℕ → Globals → Globals) (h : ℕ),
      php_output_handler_op req call g1 h (fed PHP_OUTPUT_HANDLER_WRITE str) =
        ((php_output_handler_append g1 h (fed PHP_OUTPUT_HANDLER_WRITE str).input).1,
          fed PHP_OUTPUT_HANDLER_WRITE str, PHP_OUTPUT_HANDLER_NO_DATA) :=
    fun call h => handler_op_running hr' rfl
  unfold fed at hwalk hkeeps hone
  rw [← hrun]
  unfold php_output_write
  split
  · exact ⟨rfl, rfl⟩
  · split
    · have hlock : php_output_lock_error g1 PHP_OUTPUT_HANDLER_WRITE = false := rfl
      unfold php_output_op
      simp only [hlock, hwalk, hone]
      refine ⟨trivial, ?_⟩
      rw [if_neg Bool.false_ne_true]
      split
      · split
        · rw [send_keeps_running, hkeeps]
        · split
          · split
            · rw [send_keeps_running]
            · rw [send_keeps_running, append_keeps_running]
          · rw [send_keeps_running]
      · rw [send_keeps_running]
    · exact ⟨rfl, rfl⟩

end Locked

theorem callUser_harmless (req : Request) : Harmless (callUser req) := by
  intro data mode g hr hg hb
  have hidle : Harmless fun _ _ g => g := fun _ _ g _ hg hb => ⟨hg, Frame.refl g, hb⟩
  have hwrites : ∀ (strs : List (List UInt8)) (g : Globals), WellFormed g →
      Balanced g g.handlers [] [] →
      Settled g (strs.foldl (fun g str => echo req (fun _ _ g => g) str g) g) := by
    intro strs
    induction strs with
    | nil =>
      intro g hg hb
      exact ⟨hg, Frame.refl g, hb⟩
    | cons str strs ih =>
      intro g hg hb
      have hone : Settled g (echo req (fun _ _ g => g) str g) := echo_spec str hidle hg hb
      have hb1 := hone.balanced
      rw [← hone.frame.handlers] at hb1
      exact hone.trans (ih _ hone.wellFormed hb1)
  obtain ⟨hwf, hframe, hbal⟩ := hwrites (req.echo g.calls data mode) g hg hb
  exact ⟨⟨hwf.activated, hwf.active, hwf.nodup, hwf.fresh, hwf.level, hwf.empty, hwf.fits⟩,
    ⟨hframe.handlers, hframe.active, hframe.running, hframe.next, hframe.others⟩,
    hbal.transfer rfl rfl rfl rfl⟩

end PhpRuntime.Output
