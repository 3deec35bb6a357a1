import NestHarness.Lib.Js
import NestHarness.Lib.Number

/-!
# Pagination

The class `Pagination`: the page, the row window and the page tabs of a list request.
-/

namespace NestHarness

open Js (Number)

/-- A number as a caller or a query string gives it. -/
inductive Param where
  | absent
  | text (s : String)
  | number (x : Number)

/-- `parseInt` reads `undefined` as a text. -/
def Param.parseInt : Param → Number
  | absent => Js.parseInt "undefined"
  | text s => Js.parseInt s
  | number x => x.parseInt

/-- `!isNaN(parseInt(v)) ? parseInt(v) : other` -/
def Param.parseOr (v : Param) (other : Number) : Number :=
  if v.parseInt.isNaN then other else v.parseInt

structure PaginationData where
  allSearchYn : Js.Value := .undefined
  totalCount : Param := .absent
  page : Param := .absent
  size : Param := .absent
  pageSize : Param := .absent

/-- `all_search_yn` is `'Y'`; anything else counts as `'N'`. -/
def PaginationData.searchesAll (data : PaginationData) : Bool :=
  match data.allSearchYn with
  | .str s => s == "Y"
  | _ => false

/-- The page asked for, the first one for a page below it. -/
def PaginationData.requestedPage (data : PaginationData) : Number :=
  let page := data.page.parseOr 1
  if page.le 0 then 1 else page

structure PageRange where
  start : Number
  end_ : Number

structure Pagination where
  searchesAll : Bool
  size : Number
  pageSize : Number
  totalCount : Number
  page : Number
  maxPage : Number
  pageRange : PageRange
  limit : Number
  offset : Number

/-- `Math.floor(x / y)`, and one more if `x % y > 0`. -/
def quotientUp (x y : Number) : Number :=
  let quotient := (x / y).floor
  if Number.lt 0 (x % y) then quotient + 1 else quotient

/-- The row that a page begins with. -/
def pageOffset (page size : Number) : Number := (page - 1) * size

/-- The tabs around `page`. -/
def PageRange.around (page maxPage pageSize : Number) : PageRange :=
  let end_ := quotientUp page pageSize * pageSize
  { start := end_ - (pageSize - 1)
    end_ := if maxPage.lt end_ then maxPage else end_ }

namespace Pagination

/-- `new Pagination(data)` -/
def new (data : PaginationData) : Pagination :=
  let totalCount := data.totalCount.parseOr 1
  let page := data.requestedPage
  let size := data.size.parseOr 20
  let pageSize := data.pageSize.parseOr 10
  let maxPage := quotientUp totalCount size
  let (page, maxPage, size) :=
    if data.searchesAll then (1, 1, totalCount) else (page, maxPage, size)
  let maxPage := if maxPage.isZero then 1 else maxPage
  let page := if maxPage.lt page then maxPage else page
  { searchesAll := data.searchesAll
    size, pageSize, totalCount, page, maxPage
    pageRange := .around page maxPage pageSize
    limit := size
    offset := pageOffset page size }

/-- `content_start_number` of `getPagination`. -/
def contentStartNumber (p : Pagination) : Number := p.totalCount - (p.page - 1) * p.size

/-- `content_start_number_reverse` of `getPagination`. -/
def contentStartNumberReverse (p : Pagination) : Number := 1 + (p.page - 1) * p.size

end Pagination

end NestHarness
