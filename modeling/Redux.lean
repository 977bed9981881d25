import Redux.File.AnaRunTrip
import Redux.Util.FileTypes
import Redux.Util.ReplaceN
import Redux.Util.MedianFilter
import Redux.Util.RiceSafe
import Redux.Momfbd.JobSteps
import Redux.Momfbd.PatchTrip
import Redux.Momfbd.PreprocessRuns
import Redux.Momfbd.ConfigTrip
import Redux.Daemon.Recovery
import Redux.Daemon.ActiveWIP
import Redux.File.AnaRead
import Redux.File.AnaBounds
import Redux.File.AnaHeader
import Redux.File.MomfbdSize
import Redux.File.FitsLongString
import Redux.Daemon.AddJobs
import Redux.Network.Host
import Redux.Util.Semaphore
import Redux.Util.WatchRuns
import Redux.Momfbd.StepLimits
import Redux.Momfbd.ParseEnds
import Redux.Util.VectorTranslator
import Redux.Momfbd.ModeList
import Redux.Momfbd.ModeSizes
import Redux.Momfbd.AlignClip
import Redux.Momfbd.Cutout
import Redux.Momfbd.NullSpaceCache
import Redux.Momfbd.TiltGroups
import Redux.Util.ArrayPack
import Redux.Util.ArrayEqual
import Redux.Momfbd.PatchLimits
import Redux.Image.Noll
import Redux.Image.RadialPolynomial
import Redux.Momfbd.PropertiesTrip
import Redux.Momfbd.SolverMetric
import Redux.Momfbd.ModeCache
import Redux.Image.CachedFile
import Redux.Util.Region
import Redux.Util.Restrict
import Redux.Util.BoundValue
import Redux.Util.Transpose
import Redux.Util.ArrayLimits
import Redux.Util.ArrayNeighbourhood
import Redux.Util.ArrayWrites
import Redux.Util.ArrayCopy
import Redux.Momfbd.SolverGradient
import Redux.Momfbd.Shifts
import Redux.Momfbd.ShiftInit
import Redux.Momfbd.SolverShift
import Redux.Momfbd.DarkFrames
import Redux.Momfbd.TraceObjects
import Redux.Momfbd.ResultLayout
import Redux.Momfbd.SlaveResults
import Redux.Momfbd.FrameStack
import Redux.Momfbd.ModeSteps
import Redux.Momfbd.StoredWavefronts
import Redux.Logging.LogToNetwork
import Redux.Image.Reorder
import Redux.Image.Centering
import Redux.Image.FourierProduct
import Redux.Image.KarhunenLoeve
import Redux.Math.Binomial
import Redux.Util.QuickSort
import Redux.Image.ChiSquare
import Redux.Image.ConnectedRegion
import Redux.Image.FillPixels
import Redux.Util.ArrayStats
import Redux.Image.Apodize
import Redux.Image.Mozaic
import Redux.Image.ClipImage
import Redux.Util.LongestStreak
import Redux.Momfbd.RowOrder
import Redux.Momfbd.SumBasis
import Redux.Momfbd.RegisterJob
import Redux.Util.PointerLevels
import Redux.Util.BitOperations
import Redux.Momfbd.SearchSpace
import Redux.Daemon.PrepareWork
import Redux.Daemon.SlaveJob
import Redux.Momfbd.ConstraintWire
