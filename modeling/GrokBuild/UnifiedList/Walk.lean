import GrokBuild.UnifiedList.Page

/-!
# The walk is one sorted merge

The rows of the pages before the cursor's token are below its boundary, those of the pages
after it are above the frontier, so what a call emits is what all the rows have there. Each
call emits something or moves on to a later page.
-/

namespace GrokBuild.UnifiedList

open GrokBuild.Text
open scoped List

variable {T α τ : Type} [LinearOrder T] {clock : Rfc3339 T}

section Cuts

variable {lo hi : WithBot (SortKey T)} {rows rows' : List (UnifiedRow α)}

theorem past_append : past clock lo (rows ++ rows') = past clock lo rows ++ past clock lo rows' :=
  List.filter_append ..

theorem between_append :
    between clock lo hi (rows ++ rows') = between clock lo hi rows ++ between clock lo hi rows' :=
  List.filter_append ..

theorem past_eq_nil_iff :
    past clock lo rows = [] ↔ ∀ row ∈ rows, (rowSortKey clock row : WithBot (SortKey T)) ≤ lo := by
  simp only [past, List.filter_eq_nil_iff, decide_eq_true_eq, not_lt]

theorem past_length (h : lo ≤ hi) :
    (past clock lo rows).length =
      (between clock lo hi rows).length + (past clock hi rows).length := by
  rw [← (past_perm h rows).length_eq, List.length_append]

theorem between_eq_nil
    (h : ∀ row ∈ rows, (rowSortKey clock row : WithBot (SortKey T)) ≤ lo ∨
      hi < rowSortKey clock row) : between clock lo hi rows = [] := by
  rw [between, List.filter_eq_nil_iff]
  intro row hrow
  rw [decide_eq_true_eq]
  rintro ⟨hlo, hhi⟩
  rcases h row hrow with hle | hlt
  · exact absurd hle (not_le.2 hlo)
  · exact absurd hhi (not_le.2 hlt)

theorem any_kind_eq {kind : SessionKind} (h : ∀ row ∈ rows, row.kind = kind) :
    (past clock lo rows).any (·.kind == kind) = !(past clock lo rows).isEmpty := by
  cases hpast : past clock lo rows with
  | nil => rfl
  | cons row rest =>
    have hmem : row ∈ rows := List.mem_of_mem_filter (hpast ▸ List.mem_cons_self ..)
    simp [h row hmem]

theorem any_kind_ne {kind kind' : SessionKind} (h : ∀ row ∈ rows, row.kind = kind)
    (hne : kind ≠ kind') : (past clock lo rows).any (·.kind == kind') = false := by
  rw [List.any_eq_false]
  intro row hrow
  rw [h row (List.mem_of_mem_filter hrow), beq_iff_eq]
  exact hne

end Cuts

section Call

variable {localRows : List (UnifiedRow α)} {conv : ConvLane α τ} {cursor : CompositeCursor τ}
  {limit : ℕ}

/-- The rows of a page are not past its frontier, and the last page has none. -/
def ConvLane.Framed (clock : Rfc3339 T) : ConvLane α τ → Prop
  | .page rows nextToken frontier =>
    (nextToken = none → frontier = none) ∧
      ∀ f, frontier = some f → ∀ row ∈ rows, rowSortKey clock row ≤ boundarySortKey clock f
  | _ => True

variable (hdistinct : (localRows ++ conv.rows).Pairwise fun a b =>
    rowSortKey clock a ≠ rowSortKey clock b)
  (hlocal : ∀ row ∈ localRows, row.kind = .build) (hconv : ∀ row ∈ conv.rows, row.kind = .chat)

include hdistinct hlocal hconv in
/-- There is a next cursor if local rows are left or the conversation lane goes on. -/
theorem nextCursor_eq_isEmpty :
    let page := mergeAndPaginate clock localRows conv cursor limit
    let boundary := nextBoundary clock localRows conv cursor limit
    let next := conv.advance cursor (!(past clock (cut clock boundary) conv.rows).isEmpty)
      (page.emitted.getLast?.map boundaryOf)
    page.nextCursor =
      if !(past clock (cut clock boundary) localRows).isEmpty || next.2.2 then
        some { boundary := boundary, convPageToken := next.1, convPageDrained := next.2.1 }
      else none := by
  intro page boundary next
  have hbuild : (past clock (cut clock boundary) (localRows ++ conv.rows)).any
      (·.kind == .build) = !(past clock (cut clock boundary) localRows).isEmpty := by
    rw [past_append, List.any_append, any_kind_eq hlocal, any_kind_ne hconv (by decide),
      Bool.or_false]
  have hchat : (past clock (cut clock boundary) (localRows ++ conv.rows)).any
      (·.kind == .chat) = !(past clock (cut clock boundary) conv.rows).isEmpty := by
    rw [past_append, List.any_append, any_kind_eq hconv, any_kind_ne hlocal (by decide),
      Bool.false_or]
  have hnext : page.nextCursor = _ := nextCursor_eq hdistinct
  rw [hbuild, hchat] at hnext
  exact hnext

include hdistinct in
/-- A local row left over makes the call emit, unless a frontier holds it back. -/
theorem emitted_ne_nil_of_local (hlimit : 1 ≤ limit)
    (hne : past clock (cut clock (nextBoundary clock localRows conv cursor limit)) localRows ≠ [])
    (hf : conv.frontier = none) :
    (mergeAndPaginate clock localRows conv cursor limit).emitted ≠ [] := by
  obtain ⟨row, hrow⟩ := List.exists_mem_of_ne_nil _ hne
  apply emitted_ne_nil hdistinct hlimit
  · rw [past_append]
    exact List.mem_append_left _ hrow
  · intro f hsome
    rw [hf] at hsome
    cases hsome

/-- What a call can come to: without a next cursor nothing is left, and with one the call
emitted a row and stays at its page, or moved on to the next page. -/
inductive Outcome (clock : Rfc3339 T) (localRows : List (UnifiedRow α)) (cursor : CompositeCursor τ)
    (boundary : Option BoundaryKey) (emitted : List (UnifiedRow α)) :
    ConvLane α τ → Option (CompositeCursor τ) → Prop where
  | done {conv : ConvLane α τ} (hlocal : past clock (cut clock boundary) localRows = [])
      (hpage : ∀ rows token f, conv = .page rows token f →
        token = none ∧ past clock (cut clock boundary) rows = []) :
      Outcome clock localRows cursor boundary emitted conv none
  | stay {conv : ConvLane α τ} (hne : emitted ≠ []) (drained : Bool) :
      Outcome clock localRows cursor boundary emitted conv
        (some ⟨boundary, cursor.convPageToken, drained⟩)
  | advance {rows : List (UnifiedRow α)} {token : Option τ} {f : Option BoundaryKey}
      (hrows : past clock (cut clock boundary) rows = [])
      (hne : token = none → emitted ≠ []) (drained : Bool) :
      Outcome clock localRows cursor boundary emitted (.page rows token f)
        (some ⟨boundary, token, drained⟩)

include hdistinct hlocal hconv in
theorem outcome (hlimit : 1 ≤ limit) (hframed : conv.Framed clock) :
    let page := mergeAndPaginate clock localRows conv cursor limit
    Outcome clock localRows cursor (nextBoundary clock localRows conv cursor limit) page.emitted
      conv page.nextCursor := by
  intro page
  have hnext : page.nextCursor = _ := nextCursor_eq_isEmpty hdistinct hlocal hconv
  have hemit : past clock (cut clock (nextBoundary clock localRows conv cursor limit))
      localRows ≠ [] → conv.frontier = none → page.emitted ≠ [] :=
    emitted_ne_nil_of_local hdistinct hlimit
  rw [hnext]
  cases conv with
  | skipped =>
    simp only [ConvLane.advance, Bool.or_false, Bool.not_eq_true', List.isEmpty_eq_false_iff]
    split
    · next hl => exact .stay (hemit hl rfl) _
    · next hl => exact .done (not_not.1 hl) (by rintro _ _ _ ⟨⟩)
  | degraded reason =>
    simp only [ConvLane.advance]
    split
    · next hmore =>
      have hne : page.emitted ≠ [] := by
        rintro hnil
        rw [hnil] at hmore
        simp at hmore
      rw [Bool.or_true, if_pos rfl]
      exact .stay hne _
    · simp only [Bool.or_false, Bool.not_eq_true', List.isEmpty_eq_false_iff]
      split
      · next hl => exact .stay (hemit hl rfl) _
      · next hl => exact .done (not_not.1 hl) (by rintro _ _ _ ⟨⟩)
  | page rows token f =>
    obtain ⟨hlast, hrows⟩ := hframed
    simp only [ConvLane.advance, Bool.not_eq_true', List.isEmpty_eq_false_iff]
    split
    · next hr =>
      -- a row of the page left over is not past the frontier, so the call emitted
      obtain ⟨row, hrow⟩ := List.exists_mem_of_ne_nil _ hr
      rw [Bool.or_true, if_pos rfl]
      have hleft : row ∈ past clock
          (cut clock (nextBoundary clock localRows (.page rows token f) cursor limit))
          (localRows ++ rows) := by
        rw [past_append]
        exact List.mem_append_right _ hrow
      have hf : ∀ b, f = some b → rowSortKey clock row ≤ boundarySortKey clock b :=
        fun b hb => hrows b hb row (List.mem_of_mem_filter hrow)
      exact .stay (emitted_ne_nil hdistinct hlimit hleft hf) _
    · next hr =>
      split
      · next hmore =>
        refine .advance (not_not.1 hr) ?_ _
        rintro rfl
        rw [Option.isSome_none, Bool.or_false, Bool.not_eq_true', List.isEmpty_eq_false_iff] at hmore
        exact hemit hmore (hlast rfl)
      · next hmore =>
        simp only [Bool.or_eq_true, Bool.not_eq_true', List.isEmpty_eq_false_iff, not_or, not_not,
          Option.isSome_iff_ne_none] at hmore
        refine .done hmore.1 ?_
        rintro _ _ _ ⟨⟩
        exact ⟨hmore.2, not_not.1 hr⟩

end Call

section Server

variable {server : Server α τ} {keep : UnifiedRow α → Bool} {token : Option τ}

/-- The server hands out `pages` from a token on; a page that is not the last is not empty. -/
inductive Serves (server : Server α τ) : Option τ → List (List (UnifiedRow α)) → Prop where
  | last {token : Option τ} {rows : List (UnifiedRow α)} (h : server token = (rows, none)) :
      Serves server token [rows]
  | more {token : Option τ} {rows : List (UnifiedRow α)} {next : τ}
      {rest : List (List (UnifiedRow α))} (h : server token = (rows, some next))
      (hne : rows ≠ []) (hrest : Serves server (some next) rest) :
      Serves server token (rows :: rest)

/-- The fold of `max_by` keeps a row that no row so far is past. -/
theorem maxRow_foldl (clock : Rfc3339 T) (rows : List (UnifiedRow α)) (best : UnifiedRow α) :
    ∃ m, rows.foldl (fun best row =>
        match best with
        | none => some row
        | some b => if cmpTotalOrder clock b row = .gt then some b else some row) (some best) =
          some m ∧
      (m = best ∨ m ∈ rows) ∧ rowSortKey clock best ≤ rowSortKey clock m ∧
      ∀ row ∈ rows, rowSortKey clock row ≤ rowSortKey clock m := by
  induction rows generalizing best with
  | nil => exact ⟨best, rfl, .inl rfl, le_rfl, by simp⟩
  | cons row rows ih =>
    simp only [List.foldl_cons]
    by_cases hgt : cmpTotalOrder clock best row = .gt
    · obtain ⟨m, hm, hmem, hbest, hrows⟩ := ih best
      rw [cmpTotalOrder_gt_iff] at hgt
      refine ⟨m, ?_, hmem.imp_right (List.mem_cons_of_mem _), hbest, ?_⟩
      · rw [if_pos (cmpTotalOrder_gt_iff.2 hgt)]
        exact hm
      · intro row' hrow'
        rcases List.mem_cons.1 hrow' with rfl | hmem'
        · exact hgt.le.trans hbest
        · exact hrows row' hmem'
    · obtain ⟨m, hm, hmem, hrow, hrows⟩ := ih row
      have hle : rowSortKey clock best ≤ rowSortKey clock row := by
        rw [cmpTotalOrder_gt_iff] at hgt
        exact not_lt.1 hgt
      refine ⟨m, ?_, .inr ?_, hle.trans hrow, ?_⟩
      · rw [if_neg hgt]
        exact hm
      · exact hmem.elim (fun h => h ▸ List.mem_cons_self ..) (List.mem_cons_of_mem _)
      · intro row' hrow'
        rcases List.mem_cons.1 hrow' with rfl | hmem'
        · exact hrow
        · exact hrows row' hmem'

theorem maxRow_spec (clock : Rfc3339 T) {rows : List (UnifiedRow α)} (h : rows ≠ []) :
    ∃ m ∈ rows, maxRow clock rows = some m ∧
      ∀ row ∈ rows, rowSortKey clock row ≤ rowSortKey clock m := by
  cases rows with
  | nil => exact absurd rfl h
  | cons first rest =>
    obtain ⟨m, hm, hmem, hfirst, hrest⟩ := maxRow_foldl clock rest first
    refine ⟨m, ?_, hm, ?_⟩
    · exact hmem.elim (fun h => h ▸ List.mem_cons_self ..) (List.mem_cons_of_mem _)
    · intro row hrow
      rcases List.mem_cons.1 hrow with rfl | hmem'
      · exact hfirst
      · exact hrest row hmem'

/-- The frontier of a raw page: none of the last page, else one of its rows that none of
them is past. -/
theorem convFrontier_spec {rows : List (UnifiedRow α)} {f : BoundaryKey} {hasMore : Bool}
    (h : convFrontier clock rows hasMore = some f) :
    (∃ m ∈ rows, boundarySortKey clock f = rowSortKey clock m) ∧
      ∀ row ∈ rows, rowSortKey clock row ≤ boundarySortKey clock f := by
  cases hasMore with
  | false => simp [convFrontier] at h
  | true =>
    by_cases hne : rows = []
    · simp [convFrontier, hne, maxRow] at h
    · obtain ⟨m, hmem, hm, hrows⟩ := maxRow_spec clock hne
      simp only [convFrontier, Bool.not_true, Bool.false_eq_true, if_false, hm, Option.map_some,
        Option.some.injEq] at h
      rw [← h, boundarySortKey_boundaryOf]
      exact ⟨⟨m, hmem, rfl⟩, hrows⟩

theorem fetchLane_framed (fetch : Fetch) :
    (fetchLane clock server keep token fetch).Framed clock := by
  cases fetch with
  | ok =>
    refine ⟨fun hnone => ?_, fun f hf row hrow => ?_⟩
    · simp [convFrontier, hnone]
    · exact (convFrontier_spec hf).2 row (List.mem_of_mem_filter hrow)
  | skipped => exact trivial
  | degraded reason => exact trivial

/-- The rows of a fetch are among those of the first page to come. -/
theorem fetchLane_rows_sublist {pages : List (List (UnifiedRow α))}
    (h : Serves server token pages) (fetch : Fetch) :
    (fetchLane clock server keep token fetch).rows.Sublist pages.flatten := by
  cases fetch with
  | ok =>
    cases h with
    | last h => simp [fetchLane, ConvLane.rows, h]
    | more h hne hrest =>
      simp only [fetchLane, ConvLane.rows, h, List.flatten_cons]
      exact List.filter_sublist.trans (List.sublist_append_left _ _)
  | skipped => exact List.nil_sublist _
  | degraded reason => exact List.nil_sublist _

end Server

section Walk

variable {localRows : List (UnifiedRow α)} {server : Server α τ}
  {pages passed rest : List (List (UnifiedRow α))} {keep : UnifiedRow α → Bool} {limit : ℕ}
  {cursor : CompositeCursor τ} {fetch : Fetch}

/-- What is listed: local sessions and the conversations in the server's pages, in order,
no two rows with one key. -/
structure Listing (clock : Rfc3339 T) (localRows : List (UnifiedRow α)) (server : Server α τ)
    (pages : List (List (UnifiedRow α))) : Prop where
  localKind : ∀ row ∈ localRows, row.kind = .build
  convKind : ∀ row ∈ pages.flatten, row.kind = .chat
  serves : Serves server none pages
  sorted : pages.flatten.Pairwise fun a b => cmpTotalOrder clock a b ≠ .gt
  distinct : (localRows ++ pages.flatten).Pairwise fun a b =>
    rowSortKey clock a ≠ rowSortKey clock b

/-- Conversations come in strictly increasing order. -/
theorem Listing.conv_lt (h : Listing clock localRows server pages) :
    pages.flatten.Pairwise fun a b => rowSortKey clock a < rowSortKey clock b := by
  have hne := (List.pairwise_append.1 h.distinct).2.1
  refine (h.sorted.and hne).imp fun hab => ?_
  rw [ne_eq, cmpTotalOrder_gt_iff, not_lt] at hab
  exact lt_of_le_of_ne hab.1 hab.2

theorem fetchLane_rows_sublist_pages (hrest : Serves server cursor.convPageToken rest)
    (hpages : passed ++ rest = pages) :
    (fetchLane clock server keep cursor.convPageToken fetch).rows.Sublist pages.flatten := by
  rw [← hpages, List.flatten_append]
  exact (fetchLane_rows_sublist hrest fetch).trans (List.sublist_append_right _ _)

theorem Listing.lane_distinct (h : Listing clock localRows server pages)
    (hrest : Serves server cursor.convPageToken rest) (hpages : passed ++ rest = pages) :
    (localRows ++ (fetchLane clock server keep cursor.convPageToken fetch).rows).Pairwise
      fun a b => rowSortKey clock a ≠ rowSortKey clock b :=
  h.distinct.sublist ((fetchLane_rows_sublist_pages hrest hpages).append_left localRows)

theorem Listing.lane_kind (h : Listing clock localRows server pages)
    (hrest : Serves server cursor.convPageToken rest) (hpages : passed ++ rest = pages) :
    ∀ row ∈ (fetchLane clock server keep cursor.convPageToken fetch).rows, row.kind = .chat :=
  fun row hrow => h.convKind row ((fetchLane_rows_sublist_pages hrest hpages).subset hrow)

/-- A call does not pass its frontier. -/
theorem cut_nextBoundary_le {conv : ConvLane α τ} {f : BoundaryKey} (hf : conv.frontier = some f) :
    nextBoundary clock localRows conv cursor limit = cursor.boundary ∨
      cut clock (nextBoundary clock localRows conv cursor limit) ≤ boundarySortKey clock f := by
  rw [nextBoundary]
  cases hlast : (mergeAndPaginate clock localRows conv cursor limit).emitted.getLast? with
  | none => simp
  | some row =>
    right
    have hmem := List.mem_of_getLast? hlast
    rw [emitted_eq, hf] at hmem
    simp only [Option.map_some, Option.some_or]
    rw [cut_boundaryOf, WithBot.coe_le_coe]
    exact le_frontier_of_emitted hmem

/-- Of the local rows a call emits those between its boundary and the next. -/
theorem emitted_build_perm {conv : ConvLane α τ}
    (hdistinct : (localRows ++ conv.rows).Pairwise fun a b =>
      rowSortKey clock a ≠ rowSortKey clock b)
    (hlocal : ∀ row ∈ localRows, row.kind = .build)
    (hconv : ∀ row ∈ conv.rows, row.kind = .chat) :
    ((mergeAndPaginate clock localRows conv cursor limit).emitted.filter (·.kind == .build)).Perm
      (between clock (cut clock cursor.boundary)
        (cut clock (nextBoundary clock localRows conv cursor limit)) localRows) := by
  refine ((emitted_perm hdistinct).filter _).trans (List.Perm.of_eq ?_)
  rw [between_append, List.filter_append]
  have hleft : (between clock (cut clock cursor.boundary)
      (cut clock (nextBoundary clock localRows conv cursor limit)) localRows).filter
        (·.kind == .build) = between clock (cut clock cursor.boundary)
      (cut clock (nextBoundary clock localRows conv cursor limit)) localRows := by
    rw [List.filter_eq_self]
    intro row hrow
    rw [hlocal row (List.mem_of_mem_filter hrow), beq_self_eq_true]
  have hright : (between clock (cut clock cursor.boundary)
      (cut clock (nextBoundary clock localRows conv cursor limit)) conv.rows).filter
        (·.kind == .build) = [] := by
    rw [List.filter_eq_nil_iff]
    intro row hrow
    rw [hconv row (List.mem_of_mem_filter hrow)]
    decide
  rw [hleft, hright, List.append_nil]

/-- The kept rows of the pages after the one a call fetched are past the next boundary, if
that has moved. -/
theorem Listing.later_pages (h : Listing clock localRows server pages)
    {rows : List (UnifiedRow α)} {next : τ}
    (hserver : server cursor.convPageToken = (rows, some next)) (hne : rows ≠ [])
    (hpages : passed ++ rows :: rest = pages) :
    let lane := fetchLane clock server keep cursor.convPageToken .ok
    ∀ row ∈ rest.flatten, nextBoundary clock localRows lane cursor limit = cursor.boundary ∨
      cut clock (nextBoundary clock localRows lane cursor limit) < rowSortKey clock row := by
  intro lane row hrow
  obtain ⟨m, hmem, hm, -⟩ := maxRow_spec clock hne
  have hfrontier : lane.frontier = some (boundaryOf m) := by
    simp only [lane, fetchLane, ConvLane.frontier, hserver, convFrontier, hm, Option.isSome_some,
      Bool.not_true, Bool.false_eq_true, if_false, Option.map_some]
  have hlt : rowSortKey clock m < rowSortKey clock row := by
    have hsorted := h.conv_lt
    rw [← hpages, List.flatten_append, List.flatten_cons] at hsorted
    exact (List.pairwise_append.1 (List.pairwise_append.1 hsorted).2.1).2.2 m hmem row hrow
  refine (cut_nextBoundary_le hfrontier).imp_right fun hle => ?_
  rw [boundarySortKey_boundaryOf] at hle
  exact hle.trans_lt (WithBot.coe_lt_coe.2 hlt)

/-- With the page fetched and the kept rows of the pages before it below the boundary, a call
emits all that is listed between its boundary and the next. -/
theorem Listing.emitted_all_perm (h : Listing clock localRows server pages)
    (hrest : Serves server cursor.convPageToken rest) (hpages : passed ++ rest = pages)
    (hpassed : past clock (cut clock cursor.boundary) (passed.flatten.filter keep) = []) :
    let lane := fetchLane clock server keep cursor.convPageToken .ok
    (mergeAndPaginate clock localRows lane cursor limit).emitted.Perm
      (between clock (cut clock cursor.boundary)
        (cut clock (nextBoundary clock localRows lane cursor limit))
        (localRows ++ pages.flatten.filter keep)) := by
  intro lane
  have hnil : between clock (cut clock cursor.boundary)
      (cut clock (nextBoundary clock localRows lane cursor limit))
      (passed.flatten.filter keep) = [] :=
    between_eq_nil fun row hrow => .inl (past_eq_nil_iff.1 hpassed row hrow)
  refine (emitted_perm (h.lane_distinct hrest hpages)).trans (List.Perm.of_eq ?_)
  rw [between_append, between_append, ← hpages, List.flatten_append, List.filter_append,
    between_append, hnil, List.nil_append]
  congr 1
  cases hrest with
  | last hserver => simp [lane, fetchLane, ConvLane.rows, hserver]
  | @more _ rows next rest hserver hne _ =>
    rw [List.flatten_cons, List.filter_append, between_append]
    have hlater : between clock (cut clock cursor.boundary)
        (cut clock (nextBoundary clock localRows lane cursor limit))
        (rest.flatten.filter keep) = [] := by
      apply between_eq_nil
      intro row hrow
      rcases h.later_pages hserver hne hpages row (List.mem_of_mem_filter hrow) with heq | hlt
      · rw [heq]
        exact le_or_gt _ _
      · exact .inr hlt
    rw [hlater, List.append_nil]
    simp only [lane, fetchLane, ConvLane.rows, hserver]

/-- The rows a walk from a cut on gives. -/
structure Walked (clock : Rfc3339 T) (localRows conv : List (UnifiedRow α)) (complete : Prop)
    (lo : WithBot (SortKey T)) (out : List (UnifiedRow α)) : Prop where
  sorted : out.Pairwise fun a b => rowSortKey clock a < rowSortKey clock b
  above : ∀ row ∈ out, lo < rowSortKey clock row
  build : (out.filter (·.kind == .build)).Perm (past clock lo localRows)
  all : complete → out.Perm (past clock lo (localRows ++ conv))

theorem Walked.mono {conv out : List (UnifiedRow α)} {complete complete' : Prop}
    {lo : WithBot (SortKey T)} (h : Walked clock localRows conv complete lo out)
    (hc : complete' → complete) : Walked clock localRows conv complete' lo out :=
  ⟨h.sorted, h.above, h.build, fun hc' => h.all (hc hc')⟩

/-- A walk goes on from the next boundary. -/
theorem Walked.append {conv emitted out : List (UnifiedRow α)} {complete : Prop}
    {lo hi : WithBot (SortKey T)} (hle : lo ≤ hi)
    (hsorted : emitted.Pairwise fun a b => rowSortKey clock a < rowSortKey clock b)
    (hbetween : ∀ row ∈ emitted, lo < rowSortKey clock row ∧ rowSortKey clock row ≤ hi)
    (hbuild : (emitted.filter (·.kind == .build)).Perm (between clock lo hi localRows))
    (hall : complete → emitted.Perm (between clock lo hi (localRows ++ conv)))
    (hout : Walked clock localRows conv complete hi out) :
    Walked clock localRows conv complete lo (emitted ++ out) where
  sorted := by
    rw [List.pairwise_append]
    refine ⟨hsorted, hout.sorted, fun a ha b hb => ?_⟩
    exact WithBot.coe_lt_coe.1 ((hbetween a ha).2.trans_lt (hout.above b hb))
  above := by
    intro row hrow
    rcases List.mem_append.1 hrow with hmem | hmem
    · exact (hbetween row hmem).1
    · exact hle.trans_lt (hout.above row hmem)
  build := by
    rw [List.filter_append]
    exact (hbuild.append hout.build).trans (past_perm hle localRows)
  all := fun hc => ((hall hc).append (hout.all hc)).trans (past_perm hle _)

/-- A call that emits leaves fewer rows past its boundary. -/
theorem Listing.past_length_lt (h : Listing clock localRows server pages)
    (hrest : Serves server cursor.convPageToken rest) (hpages : passed ++ rest = pages) :
    let lane := fetchLane clock server keep cursor.convPageToken fetch
    (mergeAndPaginate clock localRows lane cursor limit).emitted ≠ [] →
    (past clock (cut clock (nextBoundary clock localRows lane cursor limit))
      (localRows ++ pages.flatten)).length <
      (past clock (cut clock cursor.boundary) (localRows ++ pages.flatten)).length := by
  intro lane hne
  obtain ⟨row, hrow⟩ := List.exists_mem_of_ne_nil _ hne
  have hmem : row ∈ between clock (cut clock cursor.boundary)
      (cut clock (nextBoundary clock localRows lane cursor limit))
      (localRows ++ pages.flatten) := by
    have hemitted := (emitted_perm (h.lane_distinct hrest hpages)).subset hrow
    rw [between, List.mem_filter] at hemitted ⊢
    refine ⟨?_, hemitted.2⟩
    exact List.append_subset.2 ⟨List.subset_append_left _ _, List.subset_append_of_subset_right _
      (fetchLane_rows_sublist_pages hrest hpages).subset⟩ hemitted.1
  have hpos := List.length_pos_of_mem hmem
  rw [past_length (cut_le_nextBoundary clock localRows lane cursor limit)]
  omega

/-- Calls to come: at most one for each page between two calls that emit. -/
def walkMeasure (clock : Rfc3339 T) (localRows : List (UnifiedRow α))
    (pages rest : List (List (UnifiedRow α))) (cursor : CompositeCursor τ) : ℕ :=
  (past clock (cut clock cursor.boundary) (localRows ++ pages.flatten)).length *
    (pages.length + 1) + rest.length

/-- A call that emits comes closer to the end wherever it goes on. -/
theorem Listing.walkMeasure_emitted (h : Listing clock localRows server pages)
    (hrest : Serves server cursor.convPageToken rest) (hpages : passed ++ rest = pages)
    {next : CompositeCursor τ} {rest' : List (List (UnifiedRow α))}
    (hle : rest'.length ≤ pages.length) :
    let lane := fetchLane clock server keep cursor.convPageToken fetch
    next.boundary = nextBoundary clock localRows lane cursor limit →
    (mergeAndPaginate clock localRows lane cursor limit).emitted ≠ [] →
    walkMeasure clock localRows pages rest' next < walkMeasure clock localRows pages rest cursor := by
  intro lane hboundary hne
  have hlt := h.past_length_lt hrest hpages hne
  rw [walkMeasure, walkMeasure, hboundary]
  calc (past clock (cut clock (nextBoundary clock localRows lane cursor limit))
          (localRows ++ pages.flatten)).length * (pages.length + 1) + rest'.length
      < (past clock (cut clock (nextBoundary clock localRows lane cursor limit))
          (localRows ++ pages.flatten)).length * (pages.length + 1) + (pages.length + 1) := by
        omega
    _ = ((past clock (cut clock (nextBoundary clock localRows lane cursor limit))
          (localRows ++ pages.flatten)).length + 1) * (pages.length + 1) :=
        (Nat.succ_mul _ _).symm
    _ ≤ (past clock (cut clock cursor.boundary) (localRows ++ pages.flatten)).length *
          (pages.length + 1) := Nat.mul_le_mul_right _ hlt
    _ ≤ _ := Nat.le_add_right _ _

/-- So does one that moves on to the next page. -/
theorem walkMeasure_page {lane : ConvLane α τ} {next : CompositeCursor τ}
    {rest' : List (List (UnifiedRow α))} (hlt : rest'.length < rest.length)
    (hboundary : next.boundary = nextBoundary clock localRows lane cursor limit) :
    walkMeasure clock localRows pages rest' next < walkMeasure clock localRows pages rest cursor := by
  have hle : (past clock (cut clock (nextBoundary clock localRows lane cursor limit))
      (localRows ++ pages.flatten)).length ≤
      (past clock (cut clock cursor.boundary) (localRows ++ pages.flatten)).length := by
    rw [past_length (cut_le_nextBoundary clock localRows lane cursor limit)]
    omega
  rw [walkMeasure, walkMeasure, hboundary]
  have hmul := Nat.mul_le_mul_right (pages.length + 1) hle
  omega

theorem Listing.lane_outcome (h : Listing clock localRows server pages) (hlimit : 1 ≤ limit)
    (hrest : Serves server cursor.convPageToken rest) (hpages : passed ++ rest = pages) :
    let lane := fetchLane clock server keep cursor.convPageToken fetch
    let page := mergeAndPaginate clock localRows lane cursor limit
    Outcome clock localRows cursor (nextBoundary clock localRows lane cursor limit) page.emitted
      lane page.nextCursor :=
  outcome (h.lane_distinct hrest hpages) h.localKind (h.lane_kind hrest hpages) hlimit
    (fetchLane_framed fetch)

theorem past_eq_nil_mono {lo hi : WithBot (SortKey T)} {rows : List (UnifiedRow α)} (hle : lo ≤ hi)
    (h : past clock lo rows = []) : past clock hi rows = [] :=
  past_eq_nil_iff.2 fun row hrow => (past_eq_nil_iff.1 h row hrow).trans hle

/-- Where the walk goes on: at the same page, at the next one, or at the first one again when
the pages are through. The kept rows of the pages before stay below the boundary. -/
theorem Listing.next_position (h : Listing clock localRows server pages) (hlimit : 1 ≤ limit)
    (hrest : Serves server cursor.convPageToken rest) (hpages : passed ++ rest = pages)
    {next : CompositeCursor τ} :
    let lane := fetchLane clock server keep cursor.convPageToken fetch
    (mergeAndPaginate clock localRows lane cursor limit).nextCursor = some next →
    next.boundary = nextBoundary clock localRows lane cursor limit ∧
    ∃ passed' rest', Serves server next.convPageToken rest' ∧ passed' ++ rest' = pages ∧
      walkMeasure clock localRows pages rest' next <
        walkMeasure clock localRows pages rest cursor ∧
      (past clock (cut clock cursor.boundary) (passed.flatten.filter keep) = [] →
        past clock (cut clock next.boundary) (passed'.flatten.filter keep) = []) := by
  intro lane hnext
  have hcall : Outcome clock localRows cursor (nextBoundary clock localRows lane cursor limit)
      (mergeAndPaginate clock localRows lane cursor limit).emitted lane _ :=
    h.lane_outcome hlimit hrest hpages
  have hle := cut_le_nextBoundary clock localRows lane cursor limit
  have hemitted : ∀ {rest' : List (List (UnifiedRow α))}, rest'.length ≤ pages.length →
      next.boundary = nextBoundary clock localRows lane cursor limit →
      (mergeAndPaginate clock localRows lane cursor limit).emitted ≠ [] →
      walkMeasure clock localRows pages rest' next <
        walkMeasure clock localRows pages rest cursor :=
    fun hle => h.walkMeasure_emitted hrest hpages hle
  rw [hnext] at hcall
  generalize hlane : lane = conv at hcall hle hemitted
  cases hcall with
  | stay hne drained =>
    refine ⟨rfl, passed, rest, hrest, hpages, hemitted ?_ rfl hne, past_eq_nil_mono hle⟩
    rw [← hpages, List.length_append]
    exact Nat.le_add_left _ _
  | @advance rows token f hrows hne drained =>
    refine ⟨rfl, ?_⟩
    cases fetch with
    | skipped => simp only [lane, fetchLane, reduceCtorEq] at hlane
    | degraded reason => simp only [lane, fetchLane, reduceCtorEq] at hlane
    | ok =>
      cases hrest with
      | last hserver =>
        simp only [lane, fetchLane, hserver, ConvLane.page.injEq] at hlane
        obtain ⟨-, rfl, -⟩ := hlane
        exact ⟨[], pages, h.serves, rfl, hemitted le_rfl rfl (hne rfl), fun _ => rfl⟩
      | @more _ raw token rest hserver _ hrest =>
        simp only [lane, fetchLane, hserver, ConvLane.page.injEq] at hlane
        obtain ⟨rfl, rfl, -⟩ := hlane
        refine ⟨passed ++ [raw], rest, hrest, by simpa using hpages, ?_, fun hpassed => ?_⟩
        · exact walkMeasure_page (by simp) rfl
        · rw [List.flatten_append, List.filter_append, past_append, past_eq_nil_mono hle hpassed]
          simpa using hrows

/-- A call without a next cursor leaves nothing. -/
theorem Listing.walked_done (h : Listing clock localRows server pages) (hlimit : 1 ≤ limit)
    (hrest : Serves server cursor.convPageToken rest) (hpages : passed ++ rest = pages) :
    let lane := fetchLane clock server keep cursor.convPageToken fetch
    (mergeAndPaginate clock localRows lane cursor limit).nextCursor = none →
    Walked clock localRows (pages.flatten.filter keep)
      (fetch = .ok ∧ past clock (cut clock cursor.boundary) (passed.flatten.filter keep) = [])
      (cut clock (nextBoundary clock localRows lane cursor limit)) [] := by
  intro lane hnext
  have hcall : Outcome clock localRows cursor (nextBoundary clock localRows lane cursor limit)
      (mergeAndPaginate clock localRows lane cursor limit).emitted lane _ :=
    h.lane_outcome hlimit hrest hpages
  have hle := cut_le_nextBoundary clock localRows lane cursor limit
  rw [hnext] at hcall
  generalize hlane : lane = conv at hcall hle
  cases hcall with
  | done hlocal hpage =>
    refine ⟨.nil, by simp, by rw [hlocal]; exact .refl _, ?_⟩
    rintro ⟨rfl, hpassed⟩
    obtain ⟨htoken, hrows⟩ := hpage _ _ _ hlane.symm
    cases hrest with
    | more hserver =>
      rw [hserver] at htoken
      cases htoken
    | @last _ raw hserver =>
      rw [hserver] at hrows
      rw [past_append, hlocal, ← hpages, List.flatten_append, List.filter_append, past_append,
        past_eq_nil_mono hle hpassed]
      simp [hrows]

/-- One call of the walk, with what comes after it. -/
theorem Listing.walked_call (h : Listing clock localRows server pages)
    (hrest : Serves server cursor.convPageToken rest) (hpages : passed ++ rest = pages)
    {complete : Prop} {out : List (UnifiedRow α)}
    (hcomplete : complete → fetch = .ok ∧
      past clock (cut clock cursor.boundary) (passed.flatten.filter keep) = []) :
    let lane := fetchLane clock server keep cursor.convPageToken fetch
    Walked clock localRows (pages.flatten.filter keep) complete
      (cut clock (nextBoundary clock localRows lane cursor limit)) out →
    Walked clock localRows (pages.flatten.filter keep) complete (cut clock cursor.boundary)
      ((mergeAndPaginate clock localRows lane cursor limit).emitted ++ out) := by
  intro lane hout
  have hdistinct : (localRows ++ lane.rows).Pairwise fun a b =>
      rowSortKey clock a ≠ rowSortKey clock b := h.lane_distinct hrest hpages
  refine hout.append (cut_le_nextBoundary clock localRows lane cursor limit)
    (emitted_pairwise hdistinct) ?_
    (emitted_build_perm hdistinct h.localKind (h.lane_kind hrest hpages)) ?_
  · intro row hrow
    have hmem := (emitted_perm hdistinct).subset hrow
    rw [between, List.mem_filter, decide_eq_true_eq] at hmem
    exact hmem.2
  · intro hc
    obtain ⟨rfl, hpassed⟩ := hcomplete hc
    exact h.emitted_all_perm hrest hpages hpassed

/-- The walk from any cursor that a walk reaches ends, and gives what is listed past its
boundary. -/
theorem Listing.walk_spec (h : Listing clock localRows server pages) (hlimit : 1 ≤ limit)
    (fetches : ℕ → Fetch) (n i : ℕ) (hrest : Serves server cursor.convPageToken rest)
    (hpages : passed ++ rest = pages)
    (hn : walkMeasure clock localRows pages rest cursor = n) :
    ∃ fuel out, walk clock localRows server keep limit fetches fuel i cursor = some out ∧
      Walked clock localRows (pages.flatten.filter keep)
        ((∀ i, fetches i = .ok) ∧
          past clock (cut clock cursor.boundary) (passed.flatten.filter keep) = [])
        (cut clock cursor.boundary) out := by
  induction n using Nat.strong_induction_on generalizing i cursor passed rest with
  | _ n ih =>
    cases hnext : (mergeAndPaginate clock localRows
        (fetchLane clock server keep cursor.convPageToken (fetches i)) cursor limit).nextCursor with
    | none =>
      have hdone := h.walked_done hlimit hrest hpages hnext
      refine ⟨1, _, ?_, h.walked_call hrest hpages (fun hc => ⟨hc.1 i, hc.2⟩)
        (hdone.mono fun hc => ⟨hc.1 i, hc.2⟩)⟩
      rw [List.append_nil]
      simp only [walk, hnext]
      rfl
    | some next =>
      obtain ⟨hboundary, passed', rest', hrest', hpages', hlt, hpassed⟩ :=
        h.next_position hlimit hrest hpages hnext
      obtain ⟨fuel, out, hwalk, hout⟩ := ih _ (hn ▸ hlt) (i + 1) hrest' hpages' rfl
      rw [hboundary] at hout hpassed
      refine ⟨fuel + 1, _, ?_, h.walked_call hrest hpages (fun hc => ⟨hc.1 i, hc.2⟩)
        (hout.mono fun hc => ⟨hc.1, hpassed hc.2⟩)⟩
      simp only [walk, hnext, hwalk]
      rfl

/-- The listed rows, each once and in order: with every fetch a success the walk ends and gives
all local rows and all conversations that pass the filter; whatever the fetches come to, it ends,
its rows are in order, and of the local ones it gives each once. -/
theorem walk_eq_sorted_merge (h : Listing clock localRows server pages) (hlimit : 1 ≤ limit)
    (keep : UnifiedRow α → Bool) (fetches : ℕ → Fetch) :
    ∃ fuel out, walk clock localRows server keep limit fetches fuel 0 {} = some out ∧
      out.Pairwise (fun a b => cmpTotalOrder clock a b = .lt) ∧
      (out.filter (·.kind == .build)).Perm localRows ∧
      ((∀ i, fetches i = .ok) → out.Perm (localRows ++ pages.flatten.filter keep)) := by
  have hpages : [] ++ pages = pages := rfl
  obtain ⟨fuel, out, hwalk, hout⟩ : ∃ fuel out,
      walk clock localRows server keep limit fetches fuel 0 {} = some out ∧ _ :=
    h.walk_spec hlimit fetches _ 0 h.serves hpages rfl
  have hpast : ∀ rows : List (UnifiedRow α), past clock (cut clock none) rows = rows :=
    fun rows => (retainPast_eq none rows).symm
  refine ⟨fuel, out, hwalk, ?_, ?_, fun hok => ?_⟩
  · exact hout.sorted.imp fun hab => cmpTotalOrder_lt_iff.2 hab
  · exact hout.build.trans (.of_eq (hpast _))
  · exact (hout.all ⟨hok, rfl⟩).trans (.of_eq (hpast _))

/-- Two sessions and two pages of one conversation each, between them and after them. -/
theorem walk_eq_sorted_merge_two_pages :
    let newer := "2026-01-03T00:00:00Z".toList
    let middle := "2026-01-02T00:00:00Z".toList
    let older := "2026-01-01T00:00:00Z".toList
    let clock : Rfc3339 ℕ :=
      ⟨fun s => if s = newer then some 3 else if s = middle then some 2 else
        if s = older then some 1 else none, by decide⟩
    let localRows : List (UnifiedRow Unit) :=
      [⟨.build, "a".toList, some newer, ()⟩, ⟨.build, "b".toList, some older, ()⟩]
    let server : Server Unit ℕ := fun token =>
      if token = none then ([⟨.chat, "c".toList, some middle, ()⟩], some 1)
      else ([⟨.chat, "d".toList, none, ()⟩], none)
    ∃ fuel out, walk clock localRows server (fun _ => true) 1 (fun _ => .ok) fuel 0 {} = some out ∧
      out.Pairwise (fun a b => cmpTotalOrder clock a b = .lt) ∧
      (out.filter (·.kind == .build)).Perm localRows ∧
      ((∀ i, (fun _ => Fetch.ok : ℕ → Fetch) i = .ok) →
        out.Perm (localRows ++ ([[⟨.chat, "c".toList, some middle, ()⟩],
          [⟨.chat, "d".toList, none, ()⟩]] : List (List (UnifiedRow Unit))).flatten.filter
            fun _ => true)) :=
  walk_eq_sorted_merge
    ⟨by decide, by decide, .more rfl (by decide) (.last rfl), by decide, by decide⟩ (by decide) _ _

end Walk

end GrokBuild.UnifiedList
