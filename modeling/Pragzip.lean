import Pragzip.SizeT
import Pragzip.Crc32.Table
import Pragzip.Crc32.SliceByN
import Pragzip.Crc32.Sse4
import Pragzip.PrecodeCheck.Model
import Pragzip.PrecodeCheck.Histogram
import Pragzip.PrecodeCheck.ValidTable
import Pragzip.PrecodeCheck.Sound
import Pragzip.PrecodeCheck.Bounds
import Pragzip.PrecodeCheck.Complete
import Pragzip.BlockFinder.Model
import Pragzip.BlockFinder.Spec
import Pragzip.BlockFinder.Refinement
import Pragzip.BlockFinder.Run
import Pragzip.BlockFinder.Find
import Pragzip.BlockFinder.Finalized
import Pragzip.ThreadPool.Model
import Pragzip.ThreadPool.Spec
import Pragzip.ThreadPool.Refinement
import Pragzip.BlockFetcher.Cache
import Pragzip.BlockFetcher.Model
import Pragzip.BlockFetcher.Steps
import Pragzip.BlockFetcher.Invariant
import Pragzip.BlockFetcher.Exclusive
import Pragzip.BlockFetcher.Coherent
import Pragzip.BlockFetcher.Progress
import Pragzip.BlockFetcher.Fairness
import Pragzip.FileUtils.Write
import Pragzip.FileUtils.WriteAll
import Pragzip.FileUtils.SpliceVault
import Pragzip.FileUtils.Ledger
import Pragzip.FileUtils.Failure
