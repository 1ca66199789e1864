import BloomFilters.Framework.Checked
import BloomFilters.Framework.BitArray
import BloomFilters.Framework.Words
import BloomFilters.Framework.Orbit
import BloomFilters.Framework.Footprint
import BloomFilters.Framework.Balance
import BloomFilters.Framework.Machine
import BloomFilters.Framework.Harness
import BloomFilters.Framework.Collect
import BloomFilters.Framework.Lanes
import BloomFilters.Framework.Window
import BloomFilters.HelperFuncs
import BloomFilters.BloomFilter
import BloomFilters.BasicBloomFilter
import BloomFilters.Blocks
import BloomFilters.SlidingMasks
import BloomFilters.ArrowBloomFilter
import BloomFilters.ImprovedArrowFilter
import BloomFilters.ModifiedArrowBloomFilter
import BloomFilters.BlockedBloomFilter
import BloomFilters.MaskTables
import BloomFilters.Construction
import BloomFilters.Histories
import BloomFilters.BatchProbe
import BloomFilters.FreshFilters
import BloomFilters.Relabelling
import BloomFilters.Safety
import BloomFilters.Sizes
import BloomFilters.Report
import BloomFilters.FillRatio
import BloomFilters.Sessions
import BloomFilters.Workload
import BloomFilters.CommandLine
import BloomFilters.Rejection
import BloomFilters.Bench
import BloomFilters.Generation
import BloomFilters.BenchRuns
import BloomFilters.BenchMain
import BloomFilters.Suite
