import ProxyLoop.Lib.Reads

/-!
# How a text is cut

`Cut` is the split of a text by a pattern that always consumes: up to the next match, past it, and
on.
-/

namespace Lib.Regex

variable {α : Type} {r : Regex α}

/-! ## Splitting -/

theorem consumes_of_reads (h : ∀ b a, ¬ r.Reads b [] a) : r.Consumes := by
  rintro ⟨b, a, g⟩ c' hc
  rw [ends_groups] at hc
  obtain ⟨c, at_, rfl⟩ := List.mem_map.mp hc
  obtain ⟨m, ha, hb, reads⟩ := reads_of_ends at_
  show b.length < c.before.length
  rw [hb, List.length_append, List.length_reverse]
  have : m ≠ [] := fun none_ => h b c.after (none_ ▸ reads)
  have := List.length_pos_iff.mpr this
  omega

theorem Consumes.not_reads (h : r.Consumes) (b a : List α) : ¬ r.Reads b [] a := by
  rintro ⟨c, hc, ha⟩
  obtain ⟨m, hm, hb⟩ := between_of_ends r hc
  have moves := h _ c hc
  obtain rfl : m = [] := by
    have := congrArg List.length hm
    simp only [List.nil_append, List.length_append, ← ha] at this
    exact List.eq_nil_of_length_eq_zero (by omega)
  rw [hb] at moves
  exact Nat.lt_irrefl _ moves

/-- No match starts in a text if none is read from a place in it. -/
theorem passes_of {before pre rest : List α}
    (h : ∀ done m after, done.length < pre.length → pre ++ rest = done ++ m ++ after →
      ¬ r.Reads (before ++ done).reverse m after) : r.Passes before pre rest := by
  rintro done x left rfl
  refine ends_eq_nil_iff.mpr fun m after he => h done m after (by simp) ?_
  rw [List.append_assoc, List.append_assoc, List.cons_append, he]

theorem Passes.not_reads {before pre rest : List α} (h : r.Passes before pre rest)
    (done m after : List α) (hlt : done.length < pre.length)
    (he : pre ++ rest = done ++ m ++ after) : ¬ r.Reads (before ++ done).reverse m after := by
  have hpre : done <+: pre :=
    List.prefix_of_prefix_length_le ⟨m ++ after, by rw [he, List.append_assoc]⟩
      (List.prefix_append pre rest) (Nat.le_of_lt hlt)
  obtain ⟨left, rfl⟩ := hpre
  rcases left with - | ⟨x, left⟩
  · simp at hlt
  · have hnil := h done x left rfl
    refine ends_eq_nil_iff.mp hnil m after ?_
    simpa [List.append_assoc] using he

/-- The split of a text by a pattern: `before` stands before it. -/
inductive Cut (r : Regex α) : List α → List α → List (List α) → Prop
  | last {before text : List α} : r.Passes before text [] → Cut r before text [text]
  | next {before pre m rest : List α} {g : List (Nat × List α)} {pieces : List (List α)} :
      r.Passes before pre (m ++ rest) → m ≠ [] →
      (r.ends ⟨(before ++ pre).reverse, m ++ rest, []⟩).head? =
        some ⟨(before ++ pre ++ m).reverse, rest, g⟩ →
      Cut r (before ++ pre ++ m) rest pieces → Cut r before (pre ++ m ++ rest) (pre :: pieces)

/-- A text that no match starts in, or the first place where one does. -/
theorem passes_or (r : Regex α) (before text : List α) :
    r.Passes before text [] ∨ ∃ pre x rest, text = pre ++ x :: rest ∧
      r.Passes before pre (x :: rest) ∧ r.ends ⟨(before ++ pre).reverse, x :: rest, []⟩ ≠ [] := by
  induction text generalizing before with
  | nil => exact .inl fun done x left h => by simp at h
  | cons y text ih =>
    by_cases hy : r.ends ⟨before.reverse, y :: text, []⟩ = []
    · have shift : ∀ {pre rest : List α}, pre ++ rest = text → r.Passes (before ++ [y]) pre rest →
          r.Passes before (y :: pre) rest := by
        intro pre rest hrest hp done x left hl
        rcases done with - | ⟨z, done⟩
        · obtain ⟨rfl, rfl⟩ := List.cons.inj hl
          rw [List.append_nil, hrest]
          exact hy
        · injection hl with hy' hl
          subst hy'
          have := hp done x left hl
          rwa [List.append_assoc, List.singleton_append] at this
      rcases ih (before ++ [y]) with hp | ⟨pre, x, rest, rfl, hp, hx⟩
      · exact .inl (shift (List.append_nil text) hp)
      · refine .inr ⟨y :: pre, x, rest, rfl, shift rfl hp, ?_⟩
        rwa [List.append_assoc, List.singleton_append] at hx
    · refine .inr ⟨[], y, text, rfl, fun done x left h => by simp at h, ?_⟩
      rwa [List.append_nil]

theorem exists_cut (hr : r.Consumes) (before text : List α) :
    ∃ pieces, Cut r before text pieces := by
  induction hn : text.length using Nat.strongRecOn generalizing before text with
  | ind n ih =>
    rcases passes_or r before text with hp | ⟨pre, x, rest, rfl, hp, hx⟩
    · exact ⟨_, .last hp⟩
    · obtain ⟨c, hc⟩ := Option.ne_none_iff_exists'.mp (List.head?_eq_none_iff.not.mpr hx)
      obtain ⟨m, hm, hb, hreads⟩ := reads_of_ends (List.mem_of_head? hc)
      have hne : m ≠ [] := fun he => hr.not_reads _ _ (he ▸ hreads)
      have hpos := List.length_pos_iff.mpr hne
      have hlen : c.after.length < n := by
        have := congrArg List.length hm
        simp only [List.length_append, List.length_cons] at this hn
        omega
      obtain ⟨pieces, hcut⟩ := ih _ hlen (before ++ pre ++ m) c.after rfl
      rw [hm, ← List.append_assoc]
      refine ⟨_, .next (g := c.groups) (hm ▸ hp) hne ?_ hcut⟩
      rw [← hm, hc, List.reverse_append, ← hb]

theorem scan_skip {before pre rest : List α} (h : r.Passes before pre rest) (n : Nat) :
    r.scan (pre.length + n) false ⟨before.reverse, pre ++ rest, []⟩ =
      r.scan n false ⟨(before ++ pre).reverse, rest, []⟩ := by
  induction pre generalizing before with
  | nil => simp
  | cons x pre ih =>
    have hx : r.here false ⟨before.reverse, x :: (pre ++ rest), []⟩ = none := by
      have := h [] x pre rfl
      rw [List.append_nil] at this
      simp [here, this]
    have hp : r.Passes (before ++ [x]) pre rest := fun done y left hl => by
      have := h (x :: done) y left (by simp [hl])
      simpa using this
    have := ih hp
    rw [List.length_cons, Nat.add_right_comm, List.cons_append, scan, hx]
    simpa using this

theorem Cut.pieces (hr : r.Consumes) {before text : List α} {ps : List (List α)}
    (h : Cut r before text ps) (n : Nat) (hn : text.length < n) :
    Regex.pieces (before ++ text) before.length (r.scan n false ⟨before.reverse, text, []⟩) =
      ps := by
  induction h generalizing n with
  | last hp =>
    rename_i before text
    obtain ⟨k, rfl⟩ := Nat.exists_eq_add_of_lt hn
    have hnil : r.ends ⟨(before ++ text).reverse, [], []⟩ = [] := by
      refine ends_eq_nil_iff.mpr fun m a he hreads => ?_
      obtain ⟨rfl, rfl⟩ := List.append_eq_nil_iff.mp he.symm
      exact hr.not_reads _ _ hreads
    have hskip := scan_skip hp (k + 1)
    rw [List.append_nil] at hskip
    rw [Nat.add_assoc, hskip, scan, here, hnil]
    simp [Regex.pieces]
  | next hp hne hhead _ ih =>
    rename_i before pre m rest g ps _
    have hpos := List.length_pos_iff.mpr hne
    obtain ⟨k, rfl⟩ : ∃ k, n = pre.length + (k + 1) :=
      ⟨n - pre.length - 1, by simp only [List.length_append] at hn; omega⟩
    obtain ⟨cs, hcs⟩ := List.head?_eq_some_iff.mp hhead
    have hhere : r.here false ⟨(before ++ pre).reverse, m ++ rest, []⟩ =
        some (⟨(before ++ pre).length, (before ++ pre ++ m).length, m, g⟩,
          ⟨(before ++ pre ++ m).reverse, rest, []⟩) := by
      rw [here, hcs]
      simp [Cursor.read]
      omega
    have hmove : decide ((before ++ pre).length = (before ++ pre ++ m).length) = false := by
      simp only [List.length_append, decide_eq_false_iff_not]
      omega
    have hrest : rest.length < k := by
      simp only [List.length_append] at hn
      omega
    have htext : before ++ (pre ++ (m ++ rest)) = before ++ pre ++ m ++ rest := by
      simp only [List.append_assoc]
    have hpre : ((before ++ pre ++ m ++ rest).take (before ++ pre).length).drop before.length =
        pre := by
      rw [List.append_assoc, List.take_left, List.drop_left]
    rw [List.append_assoc, scan_skip hp, scan, hhere]
    show Regex.pieces _ _ (_ :: r.scan k (decide _) _) = _
    rw [hmove, Regex.pieces, htext, hpre, ih k hrest]

theorem split_eq (hr : r.Consumes) {text : List α} {pieces : List (List α)}
    (h : Cut r [] text pieces) : r.split text = pieces :=
  h.pieces hr _ (by omega)

theorem cut_split (hr : r.Consumes) (text : List α) : Cut r [] text (r.split text) := by
  obtain ⟨pieces, h⟩ := exists_cut hr [] text
  rwa [split_eq hr h]

/-- What a substitution leaves when matches become nothing. -/
theorem sub_nil (text : List α) : r.sub (fun _ => []) text = (r.split text).flatten := by
  rw [sub, split]
  generalize r.finditer text = ms
  generalize 0 = i
  induction ms generalizing i with
  | nil => simp [sub.go, Regex.pieces]
  | cons m ms ih => simp [sub.go, Regex.pieces, ih]

theorem search_eq_false (hr : r.Consumes) {text : List α} :
    r.search text = false ↔ r.Passes [] text [] := by
  rcases passes_or r [] text with hp | ⟨pre, x, rest, rfl, hp, hx⟩
  · refine iff_of_true ?_ hp
    have hnil : r.ends ⟨text.reverse, [], []⟩ = [] := by
      refine ends_eq_nil_iff.mpr fun m a he hreads => ?_
      obtain ⟨rfl, rfl⟩ := List.append_eq_nil_iff.mp he.symm
      exact hr.not_reads _ _ hreads
    have hskip := scan_skip hp (text.length + 2)
    rw [List.append_nil, ← Nat.add_assoc, ← Nat.two_mul] at hskip
    simp only [List.reverse_nil, List.nil_append] at hskip
    rw [search, finditer, hskip, scan, here, hnil]
    rfl
  · refine iff_of_false ?_ fun h => ?_
    · obtain ⟨c, cs, hc⟩ := List.exists_cons_of_ne_nil hx
      obtain ⟨k, hk⟩ : ∃ k, 2 * (pre ++ x :: rest).length + 2 = pre.length + (k + 1) :=
        ⟨2 * (pre ++ x :: rest).length + 1 - pre.length,
          by simp only [List.length_append, List.length_cons]; omega⟩
      have hskip := scan_skip hp (k + 1)
      simp only [List.reverse_nil] at hskip
      rw [search, finditer, hk, hskip, scan, here, hc]
      simp
    · exact hx (h pre x rest rfl ▸ by simp)

theorem Passes.left {before pre pre' rest : List α} (h : r.Passes before (pre ++ pre') rest) :
    r.Passes before pre (pre' ++ rest) := by
  rintro done x left rfl
  have := h done x (left ++ pre') (by simp)
  rwa [List.append_assoc] at this

theorem exists_head_split (hr : r.Consumes) (text : List α) :
    ∃ rest, text = (r.split text).head?.getD [] ++ rest ∧
      r.Passes [] ((r.split text).head?.getD []) rest := by
  have cut := cut_split hr text
  generalize r.split text = pieces at cut
  cases cut with
  | last passes => exact ⟨[], by simp, by simpa using passes⟩
  | @next _ pre m rest _ _ passes _ _ _ => exact ⟨m ++ rest, by simp, by simpa using passes⟩

/-- A text that no match starts in lies in the first piece. -/
theorem Passes.head_split (hr : r.Consumes) {A B : List α} (h : r.Passes [] A B) :
    A <+: (r.split (A ++ B)).head?.getD [] := by
  have cut := cut_split hr (A ++ B)
  generalize r.split (A ++ B) = pieces at cut
  generalize htext : A ++ B = text at cut
  cases cut with
  | last => exact ⟨B, htext⟩
  | @next _ pre m rest _ _ _ moves head _ =>
    rcases List.append_eq_append_iff.mp (htext.trans (List.append_assoc ..)) with
      ⟨z, rfl, -⟩ | ⟨z, rfl, tail⟩
    · exact List.prefix_append _ _
    · obtain ⟨m', split, _, reads⟩ := reads_of_ends (List.mem_of_head? head)
      obtain rfl : m = m' := List.append_cancel_right split
      cases z with
      | nil => simp
      | cons x z =>
        exact absurd reads (h.not_reads pre _ _ (by simp) (by simpa using htext))

theorem prefix?_eq_none {text : List α} :
    r.prefix? text = none ↔ ∀ m a, text = m ++ a → ¬ r.Reads [] m a := by
  rw [← ends_eq_nil_iff, prefix?, Option.map_eq_none_iff, here, Option.map_eq_none_iff,
    List.find?_eq_none]
  constructor
  · intro h
    exact List.eq_nil_iff_forall_not_mem.mpr fun c hc => h c hc (by simp)
  · intro h c hc
    rw [h] at hc
    cases hc

theorem split_eq_self (hr : r.Consumes) {text : List α} (h : r.search text = false) :
    r.split text = [text] :=
  split_eq hr (.last ((search_eq_false hr).mp h))

theorem sub_eq_self (hr : r.Consumes) {text : List α} (h : r.search text = false) :
    r.sub (fun _ => []) text = text := by
  rw [sub_nil, split_eq_self hr h, List.flatten_singleton]

end Lib.Regex
